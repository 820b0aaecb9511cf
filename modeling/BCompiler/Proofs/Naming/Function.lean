import BCompiler.Proofs.Assembly.Function
import BCompiler.Proofs.Naming.Course

/-!
The names inside a function.

Blocks, values and parameters share one space of names in the assembly. No two of them have the same
name, so a name in the lines of a function tells what it stands for.
-/
namespace BCompiler

/-- A parameter is given a stack slot, which no other parameter has. -/
theorem Build.nodup_of_spill {params : List String} {d d' : Draft} {u : Unit}
    (h : spill params d = .ok u d') : params.Nodup ∧ ∀ x ∈ params, d.locals.lookup x = none := by
  induction params generalizing d with
  | nil => exact ⟨.nil, fun x hx => absurd hx List.not_mem_nil⟩
  | cons param params ih =>
      obtain ⟨v, d₁, hslot, hrest⟩ := bind_eq_ok_iff.mp h
      obtain ⟨_, d₂, hstore, htail⟩ := bind_eq_ok_iff.mp hrest
      obtain ⟨hfree, _, _, rfl⟩ := slot_eq_ok_iff.mp hslot
      obtain ⟨hnodup, hnone⟩ := ih htail
      have hlocals : d₂.locals = (param, .value d.function.nextValue) :: d.locals := by
        obtain ⟨_, rfl⟩ := store_eq_ok_iff.mp hstore
        unfold Draft.opened
        split <;> rfl
      have hlater : ∀ x ∈ params, x ≠ param ∧ d.locals.lookup x = none := by
        intro x hx
        have hlookup := hnone x hx
        rw [hlocals, List.lookup_cons] at hlookup
        cases heq : x == param with
        | true =>
            rw [heq] at hlookup
            cases hlookup
        | false =>
            rw [heq] at hlookup
            exact ⟨by simpa using heq, hlookup⟩
      refine ⟨List.nodup_cons.mpr ⟨fun hm => (hlater param hm).1 rfl, hnodup⟩, fun x hx => ?_⟩
      rcases List.mem_cons.mp hx with rfl | hx
      · exact hfree
      · exact (hlater x hx).2

theorem Draft.named_ofFunction (p : Program) (id : FunctionId) (name : String)
    (params : List String) : (ofFunction p id (.entered name params)).Named [.entry] where
  blocks := rfl
  distinct := List.pairwise_singleton ..
  numbers := by
    intro x hx n hn
    cases List.mem_singleton.mp hx
    cases hn
  labels := by
    intro x hx
    cases List.mem_singleton.mp hx

namespace Function

variable {f : Function}

theorem nodup_innerNames {names : List BlockName}
    (hblocks : f.blockNames = names.map BlockName.text) (hnames : names.Nodup)
    (hvalues : f.definitions.Nodup) (hparams : f.params.Nodup) : f.innerNames.Nodup := by
  have hb : f.blockNames.Nodup := by
    rw [hblocks]
    exact List.Pairwise.map _ (fun _ _ hne he => hne (BlockName.text_injective he)) hnames
  have hv : (f.definitions.map valueName).Nodup :=
    List.Pairwise.map _
      (fun _ _ hne he => hne (toString_injective (string_append_left_cancel he))) hvalues
  have hp : (f.params.map paramName).Nodup :=
    List.Pairwise.map _ (fun _ _ hne he => hne (string_append_left_cancel he)) hparams
  have hhead {x : String} (hx : x ∈ f.blockNames) :
      x.toList.head?.any fun c => c != 'v' && c != 'p' := by
    rw [hblocks] at hx
    obtain ⟨name, _, rfl⟩ := List.mem_map.mp hx
    exact name.head_text
  refine List.nodup_append.mpr ⟨List.nodup_append.mpr ⟨hb, hv, ?_⟩, hp, ?_⟩
  · rintro x hx y hy rfl
    obtain ⟨id, _, rfl⟩ := List.mem_map.mp hy
    have hbad := hhead hx
    rw [valueName, String.toList_append] at hbad
    cases hbad
  · rintro x hx y hy rfl
    obtain ⟨param, _, rfl⟩ := List.mem_map.mp hy
    rcases List.mem_append.mp hx with hx | hx
    · have hbad := hhead hx
      rw [paramName, String.toList_append] at hbad
      cases hbad
    · obtain ⟨id, _, heq⟩ := List.mem_map.mp hx
      have hbad := congrArg String.toList heq
      rw [valueName, paramName, String.toList_append, String.toList_append] at hbad
      cases hbad

/-- The names of a function are distinct, and its lines can be written in some program. -/
structure Unambiguous (f : Function) : Prop where
  distinct : f.innerNames.Nodup
  printable : ∃ p, f.Printable p

theorem unambiguous_of_definition : OfDefinitions Unambiguous := by
  intro name params p draft c t u hname hparams hstart hbody
  obtain ⟨i, m, _, _, hspill⟩ := Draft.start_eq_ok hstart
  let start := Draft.ofFunction { p with module := m } i (.entered name params)
  have htrail : Trail start t.target := by
    have hfirst : Leads Trail id start (fun _ _ => True) (Build.spill params start) :=
      Build.spill_trails (fun _ hx => hx) start (.refl _)
    have hrest := Pass.functionBody_trails draft ⟨c, draft⟩ (.refl draft)
    rw [hspill] at hfirst
    rw [hbody] at hrest
    exact hfirst.1.trans hrest.1
  have hcoherent := (htrail.coherent (.ofFunction _ _ _ _)).toCoherent
  have hkept : t.target.function.params = params := htrail.retains.params
  refine ⟨?_, t.target.program, { hcoherent with name := ?_, params := ?_ }⟩
  · obtain ⟨_, r, hs, hb⟩ := bind_eq_ok_iff.mp hbody
    obtain ⟨_, r', hf, hb⟩ := bind_eq_ok_iff.mp hb
    obtain ⟨_, rfl⟩ := pure_eq_ok_iff.mp hb
    obtain ⟨e, hcourse⟩ := Pass.statement_course hs
    obtain ⟨_, _, _, hend⟩ := Build.finish_eq_ok_iff.mp (Pass.build_eq_ok_iff.mp hf).1
    obtain ⟨names, hnames⟩ := Draft.Names.spill hspill _ (Draft.named_ofFunction _ i name params)
    obtain ⟨names', hto, _⟩ := hcourse.names.2 names hnames.named fun s hs => by cases hs
    obtain ⟨names'', hlast⟩ := Draft.Names.endedIfOpen _ (.ret (.const 0)) names' hto.named
    rw [← hend] at hlast
    refine nodup_innerNames hlast.named.blocks hlast.named.distinct ?_ ?_
    · exact hcoherent.once.nodup_iff.mpr List.nodup_range
    · exact hkept ▸ (Build.nodup_of_spill hspill).1
  · have hsame : t.target.function.name = name := htrail.retains.name
    rw [hsame]
    exact isSymbol_of_isName hname
  · rw [hkept]
    exact hparams

end Function

/-- In every function that an accepted source defines, blocks, values and parameters have distinct
names, whatever the session held before. So each name behind a percent sign in the lines of the
function stands for exactly one of them, and each label for exactly one block. -/
theorem Session.distinctNames_of_compile {path text : String} {s s' : Session} {u : Unit}
    (h : compile path text s = .ok u s') :
    ∀ name ∈ s.definedFunctions text, ∃ f, s'.module.function? name = some f ∧
      f.innerNames.Nodup ∧ ∃ lines, s'.module.functionLines f = .ok lines ∧
        ∀ line ∈ lines, (∀ x, .inner x ∈ lineReferences line → f.innerNames.count x = 1) ∧
          ∀ x, labelAt? line = some x → f.blockNames.count x = 1 := by
  intro name hn
  obtain ⟨f, hf, hdistinct, p, hprintable⟩ :=
    function?_of_definitions Function.unambiguous_of_definition h hn
  obtain ⟨head, body, hlines, _, hhead, hlabel, hbody, _⟩ :=
    hprintable.mentions_function s'.module
  have hblocks : f.blockNames.Nodup :=
    (List.nodup_append.mp (List.nodup_append.mp hdistinct).1).1
  refine ⟨f, hf, hdistinct, head :: body, hlines, fun line hl => ⟨fun x hx => ?_, fun x hx => ?_⟩⟩
  · refine hdistinct.count.trans (if_pos ?_)
    rcases List.mem_cons.mp hl with rfl | hl
    · exact hhead.lineReferences _ hx
    · exact (hbody line hl).refers _ hx
  · refine hblocks.count.trans (if_pos ?_)
    rcases List.mem_cons.mp hl with rfl | hl
    · rw [hlabel] at hx
      cases hx
    · exact (hbody line hl).label x hx

/-- A function with every kind of block, and with the same case in a switch and in another inside
it. -/
def Session.switchInSwitch : String :=
  "f(x, y) \x7b l: switch x \x7b case 1: switch y \x7b case 1: goto l; \x7d " ++
    "case 2: return(x ? y : 3); y = x; \x7d while (x) x--; \x7d"

theorem Session.distinctNames_switchInSwitch :
    ∃ s', compile "f.b" switchInSwitch (.new "b" 8) = .ok () s' ∧
      ∃ f, s'.module.function? "f" = some f ∧ f.innerNames.Nodup := by
  have haccepts : (new "b" 8).accepts "f.b" switchInSwitch := by decide +kernel
  obtain ⟨s', hs⟩ := exists_of_accepts haccepts
  obtain ⟨f, hf, hdistinct, _⟩ := distinctNames_of_compile hs "f" (by decide +kernel)
  exact ⟨s', hs, f, hf, hdistinct⟩

end BCompiler
