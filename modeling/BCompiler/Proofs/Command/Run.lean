import BCompiler.Command.Run
import BCompiler.Proofs.Assembly.Module
import BCompiler.Proofs.Command.Disk
import BCompiler.Proofs.Command.Path
import BCompiler.Proofs.Settled

/-!
The command succeeds as a whole or leaves no trace.

All sources are compiled in one session before anything is written. A run that fails writes nothing
but its message; a run that succeeds writes the text of the whole module once, to one place. This
holds on every file system on which a write that fails changes nothing.
-/
namespace BCompiler

section Bind

variable {W α β : Type} {x : ExceptT Error (StateM W) α} {f : α → ExceptT Error (StateM W) β}
  {w w' : W}

theorem run_bind_of_ok {a : α} (h : x.run.run w = (.ok a, w')) :
    (x >>= f).run.run w = (f a).run.run w' := by
  rw [ExceptT.run_bind, StateT.run_bind, h]
  rfl

theorem run_bind_of_error {e : Error} (h : x.run.run w = (.error e, w')) :
    (x >>= f).run.run w = (.error e, w') := by
  rw [ExceptT.run_bind, StateT.run_bind, h]
  rfl

end Bind

/-- A run from a world that ends with an error and leaves no trace but its message. -/
structure World.Aborted {Φ : Type} (w : World Φ) (outcome : UInt32 × World Φ) : Prop where
  code : outcome.1 = 1
  stdout : outcome.2.stdout = w.stdout
  files : outcome.2.files = w.files
  message : ∃ (before : String) (e : Error), outcome.2.stderr = before ++ failureText e

namespace System

variable {Φ : Type} (sys : System Φ)

/-- The text of a file, if it can be read and is a text. -/
def text? (files : Φ) (path : String) : Option String :=
  match sys.read path files with
  | .ok bytes => String.fromUTF8? ⟨bytes.toArray⟩
  | .error _ => none

/-- A write that fails changes nothing. -/
structure KeepsFailed : Prop where
  write : ∀ {path text files reason files'},
    sys.write path text files = .error reason files' → files' = files
  print : ∀ {text stdout reason stdout'},
    sys.print text stdout = .error reason stdout' → stdout' = stdout

/-- The sources are read and compiled one after the other, without an error. -/
inductive Compiles (files : Φ) : Session → List String → Session → Prop
  | nil (s : Session) : Compiles files s [] s
  | cons {s s₁ s₂ : Session} {path text : String} {paths : List String} :
      sys.text? files path = some text → Session.compile path text s = .ok () s₁ →
      Compiles files s₁ paths s₂ → Compiles files s (path :: paths) s₂

/-- A text is written to one place, a file or the standard output, and the other stays as it was. -/
def Delivers (path text : String) (w w' : World Φ) : Prop :=
  if Path.isDash path then sys.print text w.stdout = .ok () w'.stdout ∧ w'.files = w.files
  else sys.write path text w.files = .ok () w'.files ∧ w'.stdout = w.stdout

/-- A text cannot be written to its place. -/
def Refuses (path text : String) (w : World Φ) : Prop :=
  if Path.isDash path then ∃ reason stdout, sys.print text w.stdout = .error reason stdout
  else ∃ reason files, sys.write path text w.files = .error reason files

/-- What makes a run fail. -/
inductive Fails (w : World Φ) (i : Invocation) : Prop
  | misnamed {path : String} : path ∈ i.inputs → Path.extension? path ≠ some "b" → Fails w i
  | unreadable {path : String} : path ∈ i.inputs → sys.text? w.files path = none → Fails w i
  | refused {before after : List String} {path text : String} {s s' : Session} {e : Error} :
      i.inputs = before ++ path :: after →
      sys.Compiles w.files (.new i.input i.wordSize) before s →
      sys.text? w.files path = some text → Session.compile path text s = .error e s' → Fails w i
  | unwritable {s : Session} {text : String} :
      sys.Compiles w.files (.new i.input i.wordSize) i.inputs s → s.module.assembly = .ok text →
      sys.Refuses i.destination text w → Fails w i

variable {sys} {w : World Φ}

namespace Compiles

variable {files : Φ} {paths : List String} {s s' : Session}

theorem text_of_mem (h : sys.Compiles files s paths s') {path : String} (hmem : path ∈ paths) :
    ∃ text, sys.text? files path = some text := by
  induction h with
  | nil => cases hmem
  | cons htext _ _ ih =>
      cases hmem with
      | head => exact ⟨_, htext⟩
      | tail _ hmem => exact ih hmem

theorem not_refused {before after : List String} {path text : String} {s₁ s₂ : Session} {e : Error}
    (hbefore : sys.Compiles files s before s₁) (htext : sys.text? files path = some text)
    (hrefused : Session.compile path text s₁ = .error e s₂) :
    ¬sys.Compiles files s (before ++ path :: after) s' := by
  induction hbefore with
  | nil s =>
      rintro (_ | ⟨htext', hcompile, -⟩)
      cases htext.symm.trans htext'
      cases hrefused.symm.trans hcompile
  | cons htext₁ hcompile₁ _ ih =>
      rintro (_ | ⟨htext', hcompile, hrest⟩)
      cases htext₁.symm.trans htext'
      cases hcompile₁.symm.trans hcompile
      exact ih hrefused hrest

theorem unique {s₁ s₂ : Session} (h₁ : sys.Compiles files s paths s₁)
    (h₂ : sys.Compiles files s paths s₂) : s₁ = s₂ := by
  induction h₁ with
  | nil s =>
      cases h₂
      rfl
  | cons htext hcompile _ ih =>
      obtain _ | ⟨htext', hcompile', hrest⟩ := h₂
      cases htext.symm.trans htext'
      cases hcompile.symm.trans hcompile'
      exact ih hrest

/-- Sources that compile are a history of the session. -/
theorem history (h : sys.Compiles files s paths s') : ∃ sources, s' = s.history sources := by
  induction h with
  | nil s => exact ⟨[], rfl⟩
  | @cons s s₁ s₂ path text paths _ hcompile _ ih =>
      obtain ⟨sources, hsources⟩ := ih
      refine ⟨(path, text) :: sources, ?_⟩
      rw [hsources, ← Session.after_of_compile hcompile]
      rfl

theorem assembly {moduleName : String} {wordSize : Nat}
    (h : sys.Compiles files (.new moduleName wordSize) paths s) :
    ∃ text, s.module.assembly = .ok text := by
  obtain ⟨sources, rfl⟩ := h.history
  exact Session.assembly_history moduleName wordSize sources

end Compiles

theorem run_readText (path : String) :
    (∃ text, sys.text? w.files path = some text ∧
        (sys.host.readText path).run.run w = (.ok text, w)) ∨
      sys.text? w.files path = none ∧ ∃ e, (sys.host.readText path).run.run w = (.error e, w) := by
  have hread : (liftM (sys.host.read path) : ExceptT Error (StateM (World Φ)) _).run.run w =
      (.ok (sys.read path w.files), w) := rfl
  unfold text? Host.readText
  rw [run_bind_of_ok hread]
  cases sys.read path w.files with
  | error reason => exact .inr ⟨rfl, _, rfl⟩
  | ok bytes =>
      dsimp only
      cases String.fromUTF8? ⟨bytes.toArray⟩ with
      | none => exact .inr ⟨rfl, _, rfl⟩
      | some text => exact .inl ⟨text, rfl, rfl⟩

/-- Sources all compile, or one of them cannot be read or is refused after those before it. In both
cases the world stays as it was. -/
theorem run_compileFiles (paths : List String) (s : Session) :
    (∃ s', sys.Compiles w.files s paths s' ∧
        (Session.compileFiles sys.host paths s).run.run w = (.ok s', w)) ∨
      ∃ before path after s₁ e, paths = before ++ path :: after ∧
        sys.Compiles w.files s before s₁ ∧
        (sys.text? w.files path = none ∨ ∃ text e s₂, sys.text? w.files path = some text ∧
          Session.compile path text s₁ = .error e s₂) ∧
        (Session.compileFiles sys.host paths s).run.run w = (.error e, w) := by
  induction paths generalizing s with
  | nil => exact .inl ⟨s, .nil s, rfl⟩
  | cons path paths ih =>
      unfold Session.compileFiles Session.compileFile
      rcases run_readText path with ⟨text, htext, hread⟩ | ⟨htext, e, hread⟩
      · cases hcompile : Session.compile path text s with
        | error e s₂ =>
            have hfile : (Session.compileFile sys.host path s).run.run w = (.error e, w) := by
              unfold Session.compileFile
              rw [run_bind_of_ok hread, hcompile]
              rfl
            exact .inr ⟨[], path, paths, s, e, rfl, .nil s, .inr ⟨text, e, s₂, htext, hcompile⟩,
              run_bind_of_error hfile⟩
        | ok u s₁ =>
            have hfile : (Session.compileFile sys.host path s).run.run w = (.ok s₁, w) := by
              unfold Session.compileFile
              rw [run_bind_of_ok hread, hcompile]
              rfl
            rcases ih s₁ with
              ⟨s', hrest, hrun⟩ | ⟨before, path', after, s₂, e, rfl, hbefore, hstop, hrun⟩
            · exact .inl ⟨s', .cons htext hcompile hrest, (run_bind_of_ok hfile).trans hrun⟩
            · exact .inr ⟨path :: before, path', after, s₂, e, rfl, .cons htext hcompile hbefore,
                hstop, (run_bind_of_ok hfile).trans hrun⟩
      · have hfile : (Session.compileFile sys.host path s).run.run w = (.error e, w) :=
          run_bind_of_error hread
        exact .inr ⟨[], path, paths, s, e, rfl, .nil s, .inl htext, run_bind_of_error hfile⟩

/-- The delivery of a text ends as the one call that it makes. -/
theorem run_deliver {path text : String} {result : Except String Unit} {w' : World Φ}
    (h : (sys.host.put path text).run w = (result, w')) :
    (sys.host.deliver path text).run.run w = (result.mapError (.io path), w') := by
  have hcall : (liftM (sys.host.put path text) : ExceptT Error (StateM (World Φ)) _).run.run w =
      (.ok ((sys.host.put path text).run w).1, ((sys.host.put path text).run w).2) := rfl
  rw [h] at hcall
  unfold Host.deliver
  rw [run_bind_of_ok hcall]
  cases result <;> rfl

section Calls

variable {path text : String} {u : Unit}

theorem run_print_of_ok {stdout : String} (h : sys.print text w.stdout = .ok u stdout) :
    (sys.host.print text).run w = (.ok (), { w with stdout }) := by
  simp only [host, StateT.run, h]

theorem run_print_of_error {reason stdout : String}
    (h : sys.print text w.stdout = .error reason stdout) :
    (sys.host.print text).run w = (.error reason, { w with stdout }) := by
  simp only [host, StateT.run, h]

theorem run_write_of_ok {files : Φ} (h : sys.write path text w.files = .ok u files) :
    (sys.host.write path text).run w = (.ok (), { w with files }) := by
  simp only [host, StateT.run, h]

theorem run_write_of_error {reason : String} {files : Φ}
    (h : sys.write path text w.files = .error reason files) :
    (sys.host.write path text).run w = (.error reason, { w with files }) := by
  simp only [host, StateT.run, h]

end Calls

/-- A text is written to its place, or nothing changes. -/
theorem delivers_or_refuses (hkeeps : sys.KeepsFailed) (path text : String) (w : World Φ) :
    (∃ w', sys.Delivers path text w w' ∧
        (sys.host.deliver path text).run.run w = (.ok (), w')) ∨
      sys.Refuses path text w ∧ ∃ e, (sys.host.deliver path text).run.run w = (.error e, w) := by
  unfold Delivers Refuses
  by_cases hdash : Path.isDash path
  · have hput : sys.host.put path text = sys.host.print text := if_pos hdash
    simp only [if_pos hdash]
    cases hprint : sys.print text w.stdout with
    | ok u stdout =>
        exact .inl ⟨{ w with stdout }, ⟨rfl, rfl⟩, run_deliver (hput ▸ run_print_of_ok hprint)⟩
    | error reason stdout =>
        have hrun := run_print_of_error hprint
        rw [hkeeps.print hprint, ← hput] at hrun
        exact .inr ⟨⟨reason, stdout, rfl⟩, _, run_deliver hrun⟩
  · have hput : sys.host.put path text = sys.host.write path text := if_neg hdash
    simp only [if_neg hdash]
    cases hwrite : sys.write path text w.files with
    | ok u files =>
        exact .inl ⟨{ w with files }, ⟨rfl, rfl⟩, run_deliver (hput ▸ run_write_of_ok hwrite)⟩
    | error reason files =>
        have hrun := run_write_of_error hwrite
        rw [hkeeps.write hwrite, ← hput] at hrun
        exact .inr ⟨⟨reason, files, rfl⟩, _, run_deliver hrun⟩

theorem Delivers.not_refuses {path text : String} {w' : World Φ} (h : sys.Delivers path text w w') :
    ¬sys.Refuses path text w := by
  unfold Delivers at h
  unfold Refuses
  split at h
  · rw [if_pos ‹_›, h.1]
    rintro ⟨_, _, he⟩
    cases he
  · rw [if_neg ‹_›, h.1]
    rintro ⟨_, _, he⟩
    cases he

/-- Nothing makes a run fail that compiles its sources and delivers their module. -/
theorem Delivers.not_fails {i : Invocation} {s : Session} {text : String} {w' : World Φ}
    (h : sys.Delivers i.destination text w w')
    (hnamed : ∀ path ∈ i.inputs, Path.extension? path = some "b")
    (hcompiles : sys.Compiles w.files (.new i.input i.wordSize) i.inputs s)
    (htext : s.module.assembly = .ok text) : ¬sys.Fails w i := by
  rintro (⟨hmem, hname⟩ | ⟨hmem, hnone⟩ | ⟨hinputs, hbefore, hread, hrefused⟩ |
    ⟨hcompiles', htext', hrefuses⟩)
  · exact hname (hnamed _ hmem)
  · obtain ⟨text', hread⟩ := hcompiles.text_of_mem hmem
    cases hnone.symm.trans hread
  · rw [hinputs] at hcompiles
    exact hbefore.not_refused hread hrefused hcompiles
  · obtain rfl := hcompiles.unique hcompiles'
    cases htext.symm.trans htext'
    exact h.not_refuses hrefuses

/-- A compilation delivers the text of the module, or something makes it fail. -/
theorem run_compile (hkeeps : sys.KeepsFailed) (i : Invocation) (w : World Φ) :
    (¬sys.Fails w i ∧ ∃ s text w', sys.Compiles w.files (.new i.input i.wordSize) i.inputs s ∧
        s.module.assembly = .ok text ∧ sys.Delivers i.destination text w w' ∧
        (i.compile sys.host).run.run w = (.ok (), w')) ∨
      sys.Fails w i ∧ ∃ e w', (i.compile sys.host).run.run w = (.error e, w') ∧
        w'.files = w.files ∧ w'.stdout = w.stdout := by
  unfold Invocation.compile
  cases hnamed : i.misnamed? with
  | some path =>
      obtain ⟨hmem, hname⟩ : path ∈ i.inputs ∧ Path.extension? path ≠ some "b" :=
        ⟨List.mem_of_find?_eq_some hnamed, by simpa using List.find?_some hnamed⟩
      exact .inr ⟨.misnamed hmem hname, _, w, rfl, rfl, rfl⟩
  | none =>
      have hall : ∀ path ∈ i.inputs, Path.extension? path = some "b" := by
        simpa [Invocation.misnamed?] using hnamed
      rcases run_compileFiles i.inputs (.new i.input i.wordSize) with
        ⟨s, hcompiles, hrun⟩ | ⟨before, path, after, s₁, e, hinputs, hbefore, hstop, hrun⟩
      · obtain ⟨text, htext⟩ := hcompiles.assembly
        have hreport : (liftM (sys.host.report (i.report s)) :
            ExceptT Error (StateM (World Φ)) _).run.run w =
              (.ok (), { w with stderr := w.stderr ++ i.report s }) := rfl
        dsimp only
        rw [run_bind_of_ok hrun, run_bind_of_ok hreport, htext]
        dsimp only
        rcases delivers_or_refuses hkeeps i.destination text
          { w with stderr := w.stderr ++ i.report s } with
          ⟨w', hdelivers, hdeliver⟩ | ⟨hrefuses, e, hdeliver⟩
        · have hnot : ¬sys.Fails w i := Delivers.not_fails hdelivers hall hcompiles htext
          exact .inl ⟨hnot, s, text, w', hcompiles, htext, hdelivers, hdeliver⟩
        · exact .inr ⟨.unwritable hcompiles htext hrefuses, e, _, hdeliver, rfl, rfl⟩
      · refine .inr ⟨?_, e, w, run_bind_of_error hrun, rfl, rfl⟩
        rcases hstop with htext | ⟨text, e, s₂, htext, hrefused⟩
        · exact .unreadable (by simp [hinputs]) htext
        · exact .refused hinputs hbefore htext hrefused

end System

/-- The command compiles all of its sources and delivers their module, or fails and leaves no trace.
Without a destination of its own the module goes to the path of the first source with another
extension, but for a first source named `..b`: without its extension its path is the way up, and
stays so. -/
theorem Invocation.run_all_or_nothing {Φ : Type} (sys : System Φ) (hkeeps : sys.KeepsFailed)
    (i : Invocation) (w : World Φ) :
    (sys.Fails w i → w.Aborted ((i.run sys.host).run w)) ∧
    (¬sys.Fails w i → ∃ s text, sys.Compiles w.files (.new i.input i.wordSize) i.inputs s ∧
      s.module.assembly = .ok text ∧ ((i.run sys.host).run w).1 = 0 ∧
      sys.Delivers i.destination text w ((i.run sys.host).run w).2) ∧
    (∀ path, i.output = some path → i.destination = path) ∧
    (i.output = none → Path.extension? i.input = some "b" →
      ∃ (stem : String) (stills : List String), (∀ part ∈ stills, Path.isStill part) ∧
        i.input = stem ++ ".b" ++ String.join (stills.map fun part => "/" ++ part) ∧
        i.destination = if stills = [] ∧ Path.fileName? i.input = some "..b" then stem ++ "."
          else stem ++ ".ll") := by
  refine ⟨fun hfails => ?_, fun hfails => ?_, fun path hpath => ?_, fun hnone hname => ?_⟩
  · rcases System.run_compile hkeeps i w with ⟨hnot, -⟩ | ⟨-, e, w', hrun, hfiles, hstdout⟩
    · exact absurd hfails hnot
    · unfold run
      rw [StateT.run_bind, hrun]
      exact ⟨rfl, hstdout, hfiles, _, e, rfl⟩
  · rcases System.run_compile hkeeps i w with ⟨-, s, text, w', hcompiles, htext, hdelivers, hrun⟩ |
      ⟨hfails', -⟩
    · refine ⟨s, text, hcompiles, htext, ?_⟩
      unfold run
      rw [StateT.run_bind, hrun]
      exact ⟨rfl, hdelivers⟩
    · exact absurd hfails' hfails
  · rw [destination, hpath, Option.getD_some]
  · rw [destination, hnone, Option.getD_none]
    exact Path.moduleFile_eq hname

namespace Disk

theorem system_write_of_ok {path text : String} {d d' : Disk} (h : d.write path text = .ok d') :
    system.write path text d = .ok () d' := by
  simp only [system, h]

theorem system_write_of_error {path text : String} {d : Disk} {e : DiskError}
    (h : d.write path text = .error e) : system.write path text d = .error e.reason d := by
  simp only [system, h]

theorem keepsFailed_system : system.KeepsFailed where
  write {path text d reason d'} h := by
    cases hd : d.write path text with
    | ok d₁ => cases (system_write_of_ok hd).symm.trans h
    | error e =>
        cases (system_write_of_error hd).symm.trans h
        rfl
  print h := by cases h

theorem write_of_system {path text : String} {d d' : Disk}
    (h : system.write path text d = .ok () d') : d.write path text = .ok d' := by
  cases hd : d.write path text with
  | ok d₁ =>
      cases (system_write_of_ok hd).symm.trans h
      rfl
  | error e => cases (system_write_of_error hd).symm.trans h

/-- Two sources of which the second calls a function of the first. -/
def callerDisk : Disk :=
  (empty.addFile "lib/one.b" (utf8Bytes "one()\x7breturn(1);\x7d")).addFile "two.b"
    (utf8Bytes "two()\x7breturn(one()+one());\x7d")

def callerInvocation : Invocation := ⟨"lib/one.b", ["two.b"], none, 4, false, false⟩

theorem run_callerDisk :
    ∃ s text, system.Compiles callerDisk (.new "lib/one.b" 4) ["lib/one.b", "two.b"] s ∧
      s.module.assembly = .ok text ∧
      ((callerInvocation.run system.host).run ⟨callerDisk, "", ""⟩).1 = 0 ∧
      callerDisk.Written "lib/one.ll" text
        ((callerInvocation.run system.host).run ⟨callerDisk, "", ""⟩).2.files := by
  obtain ⟨hfails, hdelivers, -⟩ := Invocation.run_all_or_nothing system keepsFailed_system
    callerInvocation ⟨callerDisk, "", ""⟩
  have hcode : ((callerInvocation.run system.host).run ⟨callerDisk, "", ""⟩).1 ≠ 1 := by
    decide +kernel
  obtain ⟨s, text, hcompiles, htext, hzero, hplace⟩ := hdelivers fun h => hcode (hfails h).code
  refine ⟨s, text, hcompiles, htext, hzero, written_of_write (write_of_system ?_)⟩
  have hdestination : callerInvocation.destination = "lib/one.ll" := by decide +kernel
  unfold System.Delivers at hplace
  rw [hdestination, if_neg (by decide +kernel)] at hplace
  exact hplace.1

/-- A source named `..b` compiles, and its module can be written to `..ll`, but not without saying
so. -/
theorem run_way_up : Path.extension? "..b" = some "b" ∧
    ((Invocation.run system.host ⟨"..b", [], some "..ll", 8, false, false⟩).run
      ⟨empty.addFile "..b" (utf8Bytes "f()\x7b\x7d"), "", ""⟩).1 = 0 ∧
    ((Invocation.run system.host ⟨"..b", [], none, 8, false, false⟩).run
      ⟨empty.addFile "..b" (utf8Bytes "f()\x7b\x7d"), "", ""⟩).1 = 1 := by
  decide +kernel

end Disk
end BCompiler
