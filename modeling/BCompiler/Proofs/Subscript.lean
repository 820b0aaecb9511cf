import BCompiler.Proofs.Global
import BCompiler.Proofs.Reach
import BCompiler.Proofs.Resolution
import BCompiler.Proofs.Storage

/-!
Subscripts stay inside their array.

The name of an array stands for a word that points to the data. A local array sets that word up when
its declaration runs; the word of a global array holds the address from the start. A subscript loads
the word, computes the index and adds as many words to the address. As long as the word points to
the data, an index below the length gives a data word, which lies on nothing else.
-/
namespace BCompiler

namespace Heading.Drafts

variable {o : Heading} {d : Draft}

theorem coherent (h : o.Drafts d) : d.Coherent := by
  obtain ⟨params, i, m, _, ht⟩ := h
  exact ht.coherent (.ofFunction _ _ _ _)

theorem of_start {params : List String}
    (h : (Draft.start o.name params o.site.target).toOption = some d) : o.Drafts d := by
  cases hd : Draft.start o.name params o.site.target with
  | error r =>
      rw [hd] at h
      cases h
  | ok d' =>
      rw [hd] at h
      cases h
      obtain ⟨i, m, hdefine, ht⟩ := Draft.trail_of_start hd
      exact ⟨params, i, m, hdefine, ht⟩

theorem trans (h : o.Drafts d) {d' : Draft} (ht : Trail d d') : o.Drafts d' := by
  obtain ⟨params, i, m, hdefine, h⟩ := h
  exact ⟨params, i, m, hdefine, h.trans ht⟩

end Heading.Drafts

/-- The code of a subscript: the word at `home` is loaded and made a pointer, then comes the code of
the index, and then the address of the element. -/
structure Subscript where
  home : Operand
  word : Operand
  pointer : Operand
  index : Operand
  address : Operand
  start : Draft
  loaded : Draft
  pointed : Draft
  indexed : Draft
  done : Draft

/-- The steps that make the code, where the index is read at the given place. -/
structure Subscript.Compiled (c : Cursor) (x : Subscript) : Prop where
  load : Build.rvalue (.address x.home) x.start = .ok x.word x.loaded
  toPointer : Build.toPointer x.word x.loaded = .ok x.pointer x.pointed
  index : ∃ depth c', Pass.expressionAt depth fullLevel ⟨c, x.pointed⟩ = .ok x.index ⟨c', x.indexed⟩
  element : Build.element x.pointer x.index x.indexed = .ok x.address x.done

/-- An operand that begins here has the name and a bracket in front. The index begins at the second
place. -/
def Cursor.Subscripts (x : String) (c c' : Cursor) : Prop :=
  ∃ c₁ c₂, Scan.sign c = .ok none c₁ ∧ Scan.atom c₁ = .ok (.name x false) c₂ ∧
    Scan.suffix c₂ = .ok (some .subscript) c'

namespace Pass

/-- Reading a name and a bracket makes the code of a subscript. -/
theorem unary_subscripts {x : String} {depth : Nat} {c c' : Cursor} {d : Draft} {home : Operand}
    {a : Denotation} {t : Site Draft} (hc : c.Subscripts x c')
    (hx : Build.resolve x d = .ok (.address home) d) (h : unary depth ⟨c, d⟩ = .ok a t) :
    ∃ y : Subscript, y.start = d ∧ y.home = home ∧ y.Compiled c' ∧
      ∃ depth' c'', suffixes depth' (.address y.address) ⟨c'', y.done⟩ = .ok a t := by
  obtain ⟨c₁, c₂, hsign, hatom, hsuffix⟩ := hc
  cases depth with
  | zero => cases h
  | succ depth =>
      rw [unary, bind_of_ok (scan_of_ok hsign)] at h
      obtain ⟨operand, s₂, hprimary, hrest⟩ := bind_eq_ok_iff.mp h
      cases depth with
      | zero => cases hprimary
      | succ depth =>
          rw [primary, bind_of_ok (scan_of_ok hatom)] at hprimary
          obtain ⟨hresolve, hcursor⟩ := build_eq_ok_iff.mp hprimary
          obtain ⟨cursor, target⟩ := s₂
          cases hcursor
          cases hx.symm.trans hresolve
          -- The bracket is the first suffix; the word is loaded before the index is read.
          rw [suffixes, bind_of_ok (scan_of_ok hsuffix)] at hrest
          obtain ⟨pointer, s₃, hbase, hrest⟩ := bind_eq_ok_iff.mp hrest
          obtain ⟨index, s₄, hindex, hrest⟩ := bind_eq_ok_iff.mp hrest
          obtain ⟨u, s₅, hexpect, hrest⟩ := bind_eq_ok_iff.mp hrest
          obtain ⟨address, s₆, helement, hrest⟩ := bind_eq_ok_iff.mp hrest
          obtain ⟨hbase, hcursor₃⟩ := build_eq_ok_iff.mp hbase
          obtain ⟨_, htarget₅⟩ := scan_eq_ok_iff.mp hexpect
          obtain ⟨helement, _⟩ := build_eq_ok_iff.mp helement
          obtain ⟨word, loaded, hload, hpointer⟩ := bind_eq_ok_iff.mp hbase
          rw [htarget₅] at helement
          refine ⟨⟨home, word, pointer, index, address, target, loaded, s₃.target, s₄.target,
              s₆.target⟩, rfl, rfl, ⟨hload, hpointer, ⟨depth, s₄.cursor, ?_⟩, helement⟩, depth,
            s₆.cursor, hrest⟩
          rw [← hindex]
          obtain ⟨cursor₃, target₃⟩ := s₃
          cases hcursor₃
          rfl

end Pass

/-- The drafts of a subscript follow each other, and they have its operands. -/
structure Subscript.Course (x : Subscript) : Prop where
  loaded : Trail x.start x.loaded
  pointed : Trail x.loaded x.pointed
  indexed : Trail x.pointed x.indexed
  done : Trail x.indexed x.done
  word : x.indexed.Has (.operand .word x.word)
  index : x.indexed.Has (.operand .word x.index)
  address : x.done.Has (.operand .pointer x.address)

theorem Subscript.Compiled.course {x : Subscript} {c : Cursor} (h : x.Compiled c)
    (hhome : x.start.Has (.operand .pointer x.home)) : x.Course := by
  have hholds : x.start.Holds (.address x.home) := hhome
  obtain ⟨hloaded, hword⟩ := Trails.of_ok (Build.rvalue_trails hholds) h.load
  obtain ⟨hpointed, hpointer⟩ := Trails.of_ok (Build.toPointer_trails hword) h.toPointer
  obtain ⟨depth, c', hindex⟩ := h.index
  obtain ⟨hindexed, hindex⟩ := Trails.of_ok (Pass.expressionAt_yields depth fullLevel _) hindex
  obtain ⟨hdone, haddress⟩ :=
    Trails.of_ok (Build.element_trails (hindexed.has hpointer) hindex) h.element
  exact ⟨hloaded, hpointed, hindexed, hdone, (hpointed.trans hindexed).has hword, hindex, haddress⟩

namespace Machine

variable {m : Machine} {memory : Memory} {c : Config} {d d' : Draft}

theorem operand_define {s : State} {id : ValueId} {v : Operand} (hv : v.Below id) (word : Word)
    (memory : Memory) : m.operand (s.define id word memory) v = m.operand s v :=
  operand_of_keeps hv (s.keeps_define id word memory)

/-- A name has the word that its storage holds when it is read. -/
theorem Reaches.rvalue (hr : m.Reaches memory c) (h : m.function.Orderly) {home word : Operand}
    (hs : Build.rvalue (.address home) d = .ok word d') (hp : d'.function.Prolongs m.function)
    (hc : m.Stands d' c) :
    ∃ c₀ a, m.Reaches memory c₀ ∧ m.operand c₀.state home = some a ∧
      m.operand c.state word = some (c.state.memory a) := by
  obtain ⟨c₀, w, memory', hr₀, _, _, hop, hstate, hw⟩ := hr.emitted h hs rfl hp hc
  obtain ⟨a, ha, hop⟩ := Option.bind_eq_some_iff.mp hop
  cases hop
  have hmemory : c.state.memory = c₀.state.memory := by
    rw [hstate]
    rfl
  exact ⟨c₀, a, hr₀, ha, hmemory ▸ hw⟩

/-- The operand has the address that is so many words behind the word of the name as the word of the
index says. -/
def Scaled (x : Subscript) (v : Operand) (s : State) (m : Machine) : Prop :=
  ∃ base i, m.operand s x.word = some base ∧ m.operand s x.index = some i ∧
    m.operand s v = some (base + i * m.wordSize)

variable {x : Subscript} {cursor : Cursor}

theorem Reaches.address (hr : m.Reaches memory c) (h : m.function.Orderly)
    (hx : x.Compiled cursor) (hcoherent : x.start.Coherent) (hcourse : x.Course)
    (hp : x.done.function.Prolongs m.function) (hc : m.Stands x.done c) :
    m.Scaled x x.address c.state := by
  have hindexed := (hcourse.loaded.trans (hcourse.pointed.trans hcourse.indexed)).coherent hcoherent
  obtain ⟨c₀, w, memory', hr₀, _, hnext, hop, hstate, haddress⟩ :=
    hr.emitted h hx.element rfl hp hc
  obtain ⟨base, hbase, hop⟩ := Option.bind_eq_some_iff.mp hop
  obtain ⟨i, hi, hop⟩ := Option.bind_eq_some_iff.mp hop
  cases hop
  obtain ⟨_, hword, _⟩ := Build.emit_eq_ok_iff.mp hx.load
  obtain ⟨_, hpointer, _⟩ := Build.emit_eq_ok_iff.mp hx.toPointer
  -- The pointer was made from the word of the name, which has not been loaded again since.
  have hcopied : c₀.state.values x.loaded.function.nextValue =
      c₀.state.values x.start.function.nextValue := by
    have hsecond := hx.toPointer
    rw [hword] at hsecond
    obtain ⟨k, b, j, hb, hfirst, hsecond⟩ := adjacent h hx.load hsecond rfl rfl
      ((hcourse.indexed.trans hcourse.done).prolongs.trans hp)
    refine (hr₀.copied h.once hb hfirst hsecond).resolve_left fun hother => ?_
    cases (Instr.define.inj (Option.some.inj (hnext.symm.trans hother))).2
  refine ⟨base, i, ?_, ?_, haddress⟩
  · rw [hstate, operand_define (hindexed.below hcourse.word), hword]
    rw [hpointer] at hbase
    exact hcopied.symm.trans hbase
  · rw [hstate, operand_define (hindexed.below hcourse.index), hi]

theorem Reaches.addressOf (hr : m.Reaches memory c) (h : m.function.Orderly)
    (hx : x.Compiled cursor) (hcoherent : x.start.Coherent) (hcourse : x.Course) {v : Operand}
    (hs : Build.toWord x.address x.done = .ok v d') (hp : d'.function.Prolongs m.function)
    (hc : m.Stands d' c) : m.Scaled x v c.state := by
  have hindexed := (hcourse.loaded.trans (hcourse.pointed.trans hcourse.indexed)).coherent hcoherent
  have hdone := hcourse.done.coherent hindexed
  have htrail := (Trails.of_ok (Build.toWord_trails hcourse.address) hs).1
  obtain ⟨c₀, w, memory', hr₀, hc₀, _, hop, hstate, hv⟩ := hr.emitted h hs rfl hp hc
  rw [Draft.opened_of_isOpen (Draft.isOpen_emit hx.element)] at hc₀
  obtain ⟨base, i, hbase, hi, haddress⟩ :=
    hr₀.address h hx hcoherent hcourse (htrail.prolongs.trans hp) hc₀
  obtain ⟨a, ha, hop⟩ := Option.bind_eq_some_iff.mp hop
  cases hop
  refine ⟨base, i, ?_, ?_, hv.trans (ha.symm.trans haddress)⟩
  · rw [hstate, operand_define (hdone.below (hcourse.done.has hcourse.word)), hbase]
  · rw [hstate, operand_define (hdone.below (hcourse.done.has hcourse.index)), hi]

/-- Wherever a run is through with the code of the draft, the operand is so many words behind the
word of the name as the index says. That word is what was at `head` when the run last loaded it. -/
def Scales (memory : Memory) (head : Word) (x : Subscript) (v : Operand) (d : Draft)
    (m : Machine) : Prop :=
  ∀ c, m.Reaches memory c → m.Stands d c → m.Scaled x v c.state ∧
    ∃ c₀ n, m.Reaches memory c₀ ∧ m.Steps n c₀ c ∧ m.Stands x.loaded c₀ ∧
      m.operand c.state x.word = some (c₀.state.memory head)

/-- What is loaded for the name is found at the address that the name stands for. -/
theorem Scales.of_scaled {head : Word} {v : Operand} {d : Draft} (h : m.function.Orderly)
    (hx : x.Compiled cursor) (hp : x.loaded.function.Prolongs m.function)
    (hhead : ∀ c a, m.Reaches memory c → m.operand c.state x.home = some a → a = head)
    (hscaled : ∀ c, m.Reaches memory c → m.Stands d c → m.Scaled x v c.state) :
    m.Scales memory head x v d := by
  intro c hr hc
  obtain ⟨base, _, hbase, _⟩ := hscaled c hr hc
  obtain ⟨c₀, n, hr₀, hsteps, hc₀, hbase₀⟩ := hr.standing h hx.load rfl hp hbase
  obtain ⟨c₁, a, hr₁, ha, hword⟩ := hr₀.rvalue h hx.load hp hc₀
  refine ⟨hscaled c hr hc, c₀, n, hr₀, hsteps, hc₀, ?_⟩
  rw [hbase, ← hbase₀, hword, hhead c₁ a hr₁ ha]

/-- Behind the declaration of a local array its first word points to the next one. -/
theorem Reaches.declared (hr : m.Reaches memory c) (h : m.function.Orderly) {name : String}
    {size : UInt64} {u : Unit} (hs : Build.declareLocalArray name size d = .ok u d')
    (hp : d'.function.Prolongs m.function)
    (hslot : .define d.function.nextValue (.alloca (some (Build.localArrayLength size))) ∈
      m.function.instrs) (hc : m.Stands d' c) :
    c.state.memory (m.slot d.function.nextValue) =
      m.slot d.function.nextValue + m.wordSize := by
  obtain ⟨head, d₁, hslot₁, hs⟩ := bind_eq_ok_iff.mp hs
  obtain ⟨first, d₂, hfirst, hs⟩ := bind_eq_ok_iff.mp hs
  obtain ⟨word, d₃, hword, hstore⟩ := bind_eq_ok_iff.mp hs
  obtain ⟨_, _, rfl, _⟩ := Build.slot_eq_ok_iff.mp hslot₁
  have hp₃ := (Function.Prolongs.of_extends ((Draft.Beside.refl d₃).store hstore).code).trans hp
  have hp₂ := (Function.Prolongs.of_extends ((Draft.Beside.refl d₂).emit hword).code).trans hp₃
  -- From the end back: the store, the word that it stores, and the address that became the word.
  obtain ⟨c₀, a, w, hr₀, hc₀, ha, hw, hstate⟩ := hr.stored h hstore hp hc
  rw [Draft.opened_of_isOpen (Draft.isOpen_emit hword)] at hc₀
  obtain ⟨c₁, w₁, _, hr₁, hc₁, _, hop₁, _, hw₁⟩ := hr₀.emitted h hword rfl hp₃ hc₀
  rw [Draft.opened_of_isOpen (Draft.isOpen_emit hfirst)] at hc₁
  obtain ⟨c₂, w₂, _, hr₂, _, _, hop₂, _, hw₂⟩ := hr₁.emitted h hfirst rfl hp₂ hc₁
  obtain ⟨base, hbase, hop₂⟩ := Option.bind_eq_some_iff.mp hop₂
  cases hop₂
  obtain ⟨w', hw', hop₁⟩ := Option.bind_eq_some_iff.mp hop₁
  cases hop₁
  cases hw'.symm.trans hw₂
  cases hw.symm.trans hw₁
  obtain rfl := hr₀.slot_value h.once hslot ha
  obtain rfl := hr₂.slot_value h.once hslot hbase
  rw [hstate]
  refine (if_pos rfl).trans ?_
  rw [show (1 : UInt64).toInt64 = 1 from rfl, Int64.one_mul]

/-- What a run of the function, as the draft `last` has it, does with an array whose name stands for
the storage at `home`. Wherever the name is read while its word points to the data, it has the
address of the data. The address of an element, also if it is taken with a sign in front, is as many
words behind the word that is loaded for the name as the index says. If that is the address of the
data, an index below the length gives a data word. -/
structure Serves (size : Nat) (globals : List Global) (memory : Memory) (o : Heading) (last : Draft)
    (name : String) (home : Operand) (x : ArrayPlace) (m : Machine) : Prop where
  value : ∀ {d d' : Draft} {word : Operand}, Build.rvalue (.address home) d = .ok word d' →
    Trail d' last → ∀ c, m.Reaches memory c → m.Stands d' c → c.state.memory x.head = x.data →
      m.operand c.state word = some x.data
  element : ∀ {d : Draft} {c c' : Cursor} {depth : Nat} {a : Denotation} {t : Site Draft},
    o.Drafts d → Build.resolve name d = .ok (.address home) d → c.Subscripts name c' →
    Pass.unary depth ⟨c, d⟩ = .ok a t → Trail t.target last →
      ∃ y : Subscript, y.start = d ∧ y.home = home ∧ y.Compiled c' ∧
        (∃ depth' c'', Pass.suffixes depth' (.address y.address) ⟨c'', y.done⟩ = .ok a t) ∧
        m.Scales memory x.head y y.address y.done ∧
        ∀ v d', Sign.addressOf.apply (.address y.address) y.done = .ok (.word v) d' →
          Trail d' last → m.Scales memory x.head y v d'
  inside : ∀ i : Word, 0 ≤ i.toInt → i.toInt < x.length →
    m.Confines size globals x (x.data + i * m.wordSize)

theorem serves {size : Nat} {globals : List Global} {o : Heading} {last : Draft} {name : String}
    {home : Operand} {x : ArrayPlace} (h : m.function.Orderly) (hm : m.function = last.function)
    (hhead : ∀ c a, m.Reaches memory c → m.operand c.state home = some a → a = x.head)
    (hinside : ∀ i : Word, 0 ≤ i.toInt → i.toInt < x.length →
      m.Confines size globals x (x.data + i * m.wordSize)) :
    m.Serves size globals memory o last name home x where
  value hs ht c hr hc hkept := by
    obtain ⟨c₀, a, hr₀, ha, hword⟩ := hr.rvalue h hs (hm ▸ ht.prolongs) hc
    rw [hword, hhead c₀ a hr₀ ha, hkept]
  element {d c c' depth a t} hd hresolve hc hread ht := by
    obtain ⟨y, rfl, rfl, hy, depth', c'', hsuffixes⟩ := Pass.unary_subscripts hc hresolve hread
    have hname : isName name := by
      obtain ⟨c₁, c₂, _, hatom, _⟩ := hc
      exact Scan.atom_gives c₁ _ c₂ hatom name false rfl
    have hhome : y.start.Has (.operand .pointer y.home) :=
      (Trails.of_ok (Build.resolve_trails hname) hresolve).2
    have hcourse := hy.course hhome
    have hholds : y.done.Holds (.address y.address) := hcourse.address
    have hdone := (Trails.of_ok ((Pass.grammar_trails depth').2.2.2.1 _ _ hholds) hsuffixes).1
    have hp : y.done.function.Prolongs m.function := hm ▸ (hdone.trans ht).prolongs
    have hloaded : y.loaded.function.Prolongs m.function :=
      (hcourse.pointed.trans (hcourse.indexed.trans hcourse.done)).prolongs.trans hp
    refine ⟨y, rfl, rfl, hy, ⟨depth', c'', hsuffixes⟩, ?_, fun v d' hs ht' => ?_⟩
    · exact .of_scaled h hy hloaded hhead fun c hr hc => hr.address h hy hd.coherent hcourse hp hc
    · obtain ⟨w, d₁, hword, hs⟩ := bind_eq_ok_iff.mp hs
      cases hs
      exact .of_scaled h hy hloaded hhead fun c hr hc =>
        hr.addressOf h hy hd.coherent hcourse hword (hm ▸ ht'.prolongs) hc
  inside := hinside

end Machine

/-- The function of a draft is orderly. -/
theorem Heading.Drafts.orderly {o : Heading} {d : Draft} (h : o.Drafts d) :
    d.function.Orderly where
  hoisted := by
    obtain ⟨params, i, m, _, ht⟩ := h
    obtain ⟨slots, hslots⟩ := ht.slotted (.ofFunction _ _ _ _)
    exact ⟨_, hslots.toHoisted⟩
  once := h.coherent.once.nodup_iff.mpr List.nodup_range

/-- The words of a local array are counted without overflow. -/
theorem Build.toNat_localArrayLength (n : Word) :
    (localArrayLength n.count).toNat = max n.toInt.toNat 1 + 1 := by
  have hcount := n.toNat_count
  have hlt := n.toInt_toNat_lt
  rw [localArrayLength, UInt64.toNat_add, toNat_max, hcount]
  have hone : (1 : UInt64).toNat = 1 := rfl
  have hsize : UInt64.size = 2 ^ 64 := rfl
  rw [hone, Nat.mod_eq_of_lt]
  omega

/-- The code of a local array comes behind its slot. -/
theorem Build.trail_of_declareLocalArray {name : String} {size : UInt64} {d d' : Draft} {u : Unit}
    (h : declareLocalArray name size d = .ok u d') :
    d.locals.lookup name = none ∧ Trail (d.withSlot name (some (localArrayLength size))) d' := by
  obtain ⟨head, d₁, hslot, h⟩ := bind_eq_ok_iff.mp h
  obtain ⟨first, d₂, hfirst, h⟩ := bind_eq_ok_iff.mp h
  obtain ⟨word, d₃, hword, hstore⟩ := bind_eq_ok_iff.mp h
  obtain ⟨hnew, _, rfl, rfl⟩ := slot_eq_ok_iff.mp hslot
  have hhead : (d.withSlot name (some (localArrayLength size))).Has
      (.operand .pointer (.value d.function.nextValue)) := .slot List.lookup_cons_self
  obtain ⟨h₂, hfirst⟩ := Trails.of_ok (emit_trails rfl
    (Draft.has_needs rfl rfl (by simpa [Operation.demands] using hhead))) hfirst
  obtain ⟨h₃, hword⟩ := Trails.of_ok (toWord_trails hfirst) hword
  have h₄ := (Trails.of_ok (store_trails hword ((h₂.trans h₃).has hhead)) hstore).1
  exact ⟨hnew, h₂.trans (h₃.trans h₄)⟩

theorem Pass.declares_of_auto {name : String} {n : Word} {s t : Site Draft} {c : Cursor}
    (hscan : Scan.autoItem s.cursor = .ok (name, some n) c)
    (h : (auto : Pass Draft Unit) s = .ok () t) :
    Build.declareLocalArray name n.count s.target = .ok () t.target := by
  have hdeclare := (bind_of_ok (scan_of_ok hscan)).symm.trans h
  exact (build_eq_ok_iff.mp hdeclare).1

namespace Heading.Drafts

variable {o : Heading} {d d' : Draft} {name : String} {size : UInt64} {u : Unit}

/-- The slot of a local array stays in the function, and the name goes on to stand for it. -/
theorem localArray (h : o.Drafts d) (hs : Build.declareLocalArray name size d = .ok u d')
    {d'' : Draft} (ht : Trail d' d'') :
    Build.resolve name d'' = .ok (.address (.value d.function.nextValue)) d'' ∧
      .define d.function.nextValue (.alloca (some (Build.localArrayLength size))) ∈
        d''.function.instrs := by
  obtain ⟨hnew, ht'⟩ := Build.trail_of_declareLocalArray hs
  have hretains := (ht'.trans ht).retains
  refine ⟨(Build.resolve_local (hretains.slots List.lookup_cons_self)).1, hretains.instrs ?_⟩
  obtain ⟨params, i, m, _, hstart⟩ := h
  obtain ⟨slots, hslots⟩ := hstart.slotted (.ofFunction _ _ _ _)
  obtain ⟨b, rest, hb, hinstrs, _⟩ :=
    (hslots.withSlot hnew (some (Build.localArrayLength size))).entry
  refine Function.mem_instrs.mpr ⟨0, b, hb, ?_⟩
  rw [hinstrs]
  refine List.mem_append_left _ (List.mem_map.mpr ⟨_, List.mem_append_right _ (.head _), rfl⟩)

end Heading.Drafts

/-- The size and the values of an array are scanned behind the name of the declaration, and the
declaration is accepted. -/
structure Heading.DeclaresArray (n : Word) (values : List Constant) (t : Site Program)
    (o : Heading) : Prop where
  scanned : ∃ c c' s, Scan.accept '[' o.site.cursor = .ok true c ∧
    Scan.arraySize Scan.number c = .ok n c' ∧
    Pass.initializers ⟨c', o.site.target⟩ = .ok values s
  accepted : Pass.declaration o.name o.site = .ok () t

theorem Scan.peekMark_of_accept {mark : Char} {c c' : Cursor} (h : accept mark c = .ok true c') :
    ∃ c₁ found, peekMark c = .ok (some mark) c₁ ∧ read c₁ = .ok found c' := by
  obtain ⟨next, c₁, hpeek, h⟩ := bind_eq_ok_iff.mp h
  by_cases hmark : next = some mark
  · rw [if_pos hmark] at h
    obtain ⟨found, c₂, hread, h⟩ := bind_eq_ok_iff.mp h
    cases h
    exact ⟨c₁, found, hmark ▸ hpeek, hread⟩
  · rw [if_neg hmark] at h
    cases h

theorem Heading.DeclaresArray.declares {n : Word} {values : List Constant} {t : Site Program}
    {o : Heading} (h : o.DeclaresArray n values t) :
    ∃ p : Program, p.declareArray o.name n.count values = .ok t.target := by
  obtain ⟨⟨c, c', s, haccept, hsize, hvalues⟩, h⟩ := h
  obtain ⟨c₁, found, hpeek, hread⟩ := Scan.peekMark_of_accept haccept
  have h := (bind_of_ok (Pass.scan_of_ok hpeek)).symm.trans h
  have h := (bind_of_ok (Pass.scan_of_ok hread)).symm.trans h
  have h := (bind_of_ok (Pass.scan_of_ok hsize)).symm.trans h
  have h := (bind_of_ok hvalues).symm.trans h
  exact ⟨s.target, Pass.update_eq_ok h⟩

/-- Storage that is placed from given offsets on is laid out if no offset lies inside other
storage. -/
theorem Machine.Laid.of_offsets {size : Nat} {globals : List Global} {m : Machine}
    (offset : Storage → Nat) (hword : m.wordSize = Int64.ofNat size)
    (hplaced : ∀ g ∈ globals, (m.symbol g.name).isSome)
    (hoffset : ∀ s ∈ m.storage globals, m.place s = Int64.ofNat (offset s))
    (hfits : ∀ s ∈ m.storage globals, offset s + s.words * size ≤ UInt64.size)
    (hapart : (m.storage globals).Pairwise fun s s' =>
      offset s + s.words * size ≤ offset s' ∨ offset s' + s'.words * size ≤ offset s) :
    m.Laid size globals where
  wordSize := hword
  placed := hplaced
  fits s hs := Nat.le_trans (Nat.le_add_left _ _) (hfits s hs)
  apart s hs s' hs' hne := by
    have hextent {s : Storage} (hs : s ∈ m.storage globals) :
        m.extent size s = (⟨0, UInt64.size⟩ : Extent).part (offset s) (s.words * size) := by
      rw [extent, hoffset s hs, Extent.part, Int64.zero_add]
    have hordered : offset s + s.words * size ≤ offset s' ∨
        offset s' + s'.words * size ≤ offset s := by
      obtain ⟨i, hi⟩ := List.mem_iff_getElem?.mp hs
      obtain ⟨j, hj⟩ := List.mem_iff_getElem?.mp hs'
      refine Decidable.byContradiction fun hn => hne ?_
      cases eq_of_getElem?_of_pairwise hapart hi hj hn fun h => hn h.symm
      exact Option.some.inj (hi.symm.trans hj)
    rw [hextent hs, hextent hs']
    rcases hordered with hle | hle
    · exact Extent.parts_apart (Nat.le_refl _) hle (hfits s' hs')
    · exact (Extent.parts_apart (Nat.le_refl _) hle (hfits s hs)).symm

namespace Session

/-- Let a function of a session be run as one of its drafts has it, with its slots and the globals
laid out for the words of the session. A local array has a slot of one word more than it has data
words, and its declaration makes the first one point to the next; a global array has a buffer of its
own, whose address is in its word from the start. The number of words goes by the size that was
scanned, and by the values of a global array; neither overflows. As long as the word points to the
data, subscripts stay inside the array. -/
theorem subscripts_confined (moduleName : String) (wordSize : Nat)
    (before : List (String × String)) (text : String) {o : Heading}
    (ho : o ∈ ((new moduleName wordSize).history before).headings text) {last : Draft}
    (hlast : o.Drafts last) {m : Machine} (hm : m.function = last.function) {globals : List Global}
    (hlaid : m.Laid wordSize globals) (memory : Memory) :
    (∀ (name : String) (n : Word) (s t : Site Draft) (c : Cursor), o.Drafts s.target →
      Scan.autoItem s.cursor = .ok (name, some n) c → (Pass.auto : Pass Draft Unit) s = .ok () t →
      Trail t.target last →
      ∃ id, (Build.localArrayLength n.count).toNat = max n.toInt.toNat 1 + 1 ∧
        .slot id (some (Build.localArrayLength n.count)) ∈ m.storage globals ∧
        (∀ d, Trail t.target d → Build.resolve name d = .ok (.address (.value id)) d) ∧
        (∀ c, m.Reaches memory c → m.Stands t.target c →
          c.state.memory (m.slot id) = m.slot id + m.wordSize) ∧
        m.Serves wordSize globals memory o last name (.value id)
          ⟨m.slot id, m.slot id + m.wordSize, max n.toInt.toNat 1,
            .slot id (some (Build.localArrayLength n.count))⟩) ∧
    ∀ (n : Word) (values : List Constant) (o' : Heading) (t : Site Program),
      values.length < UInt64.size → o'.DeclaresArray n values t →
      (∀ x ∈ t.target.module.globals,
        x.name = o'.name ∨ x.name = o'.name ++ ".data" → x ∈ globals) →
      ∃ head data,
        (Program.arrayLength n.count values).toNat =
          max (max n.toInt.toNat values.length) 1 ∧
        ⟨o'.name ++ ".data", .buffer (Program.arrayLength n.count values) values⟩ ∈ globals ∧
        ⟨o'.name, .word (.address (o'.name ++ ".data"))⟩ ∈ globals ∧
        m.symbol o'.name = some head ∧ m.symbol (o'.name ++ ".data") = some data ∧
        (m.Loaded globals memory → memory head = data) ∧
        (∀ d, o.Drafts d → d.locals.lookup o'.name = none → d.program.isBound o'.name →
          Build.resolve o'.name d = .ok (.address (.symbol o'.name)) d) ∧
        m.Serves wordSize globals memory o last o'.name (.symbol o'.name)
          ⟨head, data, max (max n.toInt.toNat values.length) 1,
            .global ⟨o'.name ++ ".data",
              .buffer (Program.arrayLength n.count values) values⟩⟩ := by
  have horderly : m.function.Orderly := hm ▸ hlast.orderly
  constructor
  · intro name n s t _ hs hscan hauto ht
    have hdeclare := Pass.declares_of_auto hscan hauto
    have hcount := Build.toNat_localArrayLength n
    have hinstr := (hs.localArray hdeclare ht).2
    rw [← hm] at hinstr
    have hslot : .slot _ (some _) ∈ m.storage globals := Machine.slot_mem_storage.mpr hinstr
    refine ⟨s.target.function.nextValue, hcount, hslot, fun d hd => (hs.localArray hdeclare hd).1,
      fun c hr hc => hr.declared horderly hdeclare (hm ▸ ht.prolongs) hinstr hc, ?_⟩
    refine Machine.serves horderly hm (fun c a hr ha => hr.slot_value horderly.once hinstr ha) ?_
    exact fun i hi hlt => hlaid.confines_slot hslot hcount hi hlt
  · intro n values o' t hcountable hdeclares hkept
    obtain ⟨p, hp⟩ := hdeclares.declares
    obtain ⟨hdata, hword⟩ := Program.mem_of_declareArray hp
    have hdata := hkept _ hdata (.inr rfl)
    have hword := hkept _ hword (.inl rfl)
    obtain ⟨head, hhead⟩ := Option.isSome_iff_exists.mp (hlaid.placed _ hword)
    obtain ⟨data, hplace⟩ := Option.isSome_iff_exists.mp (hlaid.placed _ hdata)
    have hcount := Program.toNat_arrayLength n.count hcountable
    rw [Word.toNat_count] at hcount
    refine ⟨head, data, hcount, hdata, hword, hhead, hplace,
      fun hloaded => hloaded.address hword rfl hhead hplace, fun d hd hlocal hb => ?_, ?_⟩
    · exact (Build.resolve_bound hlocal ((hd.apart ho).not_hasFunction hb) hb).1
    · refine Machine.serves horderly hm (fun c a hr ha => ?_) fun i hi hlt => ?_
      · exact Option.some.inj (ha.symm.trans hhead)
      · exact hlaid.confines_global hword hdata (by simp) hhead hplace rfl hcount hi hlt

/-- A function with an index as its parameter and a local array of three words, which is set up. -/
def arraySetUp : Function where
  name := "f"
  params := ["i"]
  blocks := [⟨"entry", [.define 0 (.alloca none), .define 1 (.alloca (some 4)),
    .store (.param "i") (.value 0), .define 2 (.arrayElement (.value 1) 4 1),
    .define 3 (.toWord (.value 2)), .store (.value 3) (.value 1)], none⟩]
  nextValue := 4
  slots := 2

/-- The globals of an array of two words, the first of which is given. -/
def pairOfWords : List Global :=
  [⟨"w.data", .buffer 2 [.word 7]⟩, ⟨"w", .word (.address "w.data")⟩]

/-- A machine for words of eight bytes. Its slots lie 64 bytes apart from 4096 on, and the array `w`
lies at 16. -/
def spread : Machine where
  function := arraySetUp
  arguments := [2]
  slot id := Int64.ofNat (4096 + 64 * id)
  symbol x := if x = "w" then some 16 else if x = "w.data" then some 24 else none
  call _ _ _ := none
  wordSize := 8

def spreadOffset : Storage → Nat
  | .slot id _ => 4096 + 64 * id
  | .global g => if g.name = "w" then 16 else 24

theorem laid_spread : spread.Laid 8 pairOfWords := by
  refine .of_offsets spreadOffset rfl (fun g hg => ?_) (fun s hs => ?_) (by decide) (by decide)
  · simp only [pairOfWords, List.mem_cons, List.not_mem_nil, or_false] at hg
    rcases hg with rfl | rfl <;> rfl
  · have hstorage : spread.storage pairOfWords =
        [.slot 0 none, .slot 1 (some 4), .global ⟨"w.data", .buffer 2 [.word 7]⟩,
          .global ⟨"w", .word (.address "w.data")⟩] := rfl
    rw [hstorage] at hs
    simp only [List.mem_cons, List.not_mem_nil, or_false] at hs
    rcases hs with rfl | rfl | rfl | rfl <;> rfl

theorem reaches_spread (memory : Memory) :
    ∃ c, spread.Reaches memory c ∧ c.block = 0 ∧ c.index = 6 :=
  ⟨_, .step (.step (.step (.step (.step (.step .start rfl) rfl) rfl) rfl) rfl) rfl, rfl, rfl⟩

/-- Where the local array is set up its word points to the data. It is served as well as the global
one, which another source has declared. -/
theorem subscripts_confined_spread :
    ∃ o ∈ ((new "b" 8).history [("a.b", "w[2] 7;")]).headings
        "f(i) \x7b extrn w; auto v[3]; v[i] = w[1]; \x7d",
      ∃ last, o.Drafts last ∧ spread.function = last.function ∧ ∀ memory,
        (∃ c, spread.Reaches memory c ∧ spread.Stands last c ∧ c.state.memory 4160 = 4168) ∧
        spread.Serves 8 pairOfWords memory o last "v" (.value 1)
          ⟨4160, 4168, 3, .slot 1 (some 4)⟩ ∧
        spread.Serves 8 pairOfWords memory o last "w" (.symbol "w")
          ⟨16, 24, 2, .global ⟨"w.data", .buffer 2 [.word 7]⟩⟩ := by
  have hlocal : ∃ o ∈ ((new "b" 8).history [("a.b", "w[2] 7;")]).headings
      "f(i) \x7b extrn w; auto v[3]; v[i] = w[1]; \x7d",
      ((Draft.start o.name ["i"] o.site.target).toOption.any fun d =>
        (Pass.accepted? (Pass.scan Scan.autoItem ⟨.ofText "v[3]" 8, d⟩)).any fun item =>
          item.1 == ("v", some 3) && (Pass.accepted? ((Pass.auto : Pass Draft Unit)
            ⟨.ofText "v[3]" 8, d⟩)).any fun r =>
            r.2.target.locals.lookup "v" == some (.value 1) && r.2.target.current == 0 &&
              r.2.target.function == arraySetUp) = true := by
    decide +kernel
  -- where the text goes on behind the name of the global array, its bracket, size and values
  let behind (rest : String) : Site Program := ⟨.ofText rest 8, .empty "b" 8⟩
  have hscanned : Pass.accepted? (Pass.scan (Scan.accept '[') (behind "[2] 7;")) =
        some (true, behind "2] 7;") ∧
      Pass.accepted? (Pass.scan (Scan.arraySize Scan.number) (behind "2] 7;")) =
        some (2, behind " 7;") ∧
      Pass.accepted? (Pass.initializers (behind " 7;")) = some ([.word 7], behind "") := by
    decide +kernel
  have hglobal : (Pass.accepted? (Pass.declaration "w" (behind "[2] 7;"))).any fun r =>
      r.2.target.module.globals == pairOfWords := by
    decide +kernel
  obtain ⟨o, ho, hlocal⟩ := hlocal
  obtain ⟨d, hstart, hlocal⟩ := (Option.any_eq_true _ _).mp hlocal
  obtain ⟨⟨item, s⟩, hscan, hlocal⟩ := (Option.any_eq_true _ _).mp hlocal
  obtain ⟨hitem, hlocal⟩ := Bool.and_eq_true_iff.mp hlocal
  obtain ⟨⟨u, t⟩, hauto, hlocal⟩ := (Option.any_eq_true _ _).mp hlocal
  obtain ⟨⟨u', t'⟩, haccepted, hglobal⟩ := (Option.any_eq_true _ _).mp hglobal
  rw [Pass.accepted?_eq_some] at hscan hauto haccepted
  simp only [Pass.accepted?_eq_some, Pass.scan_eq_ok_iff] at hscanned
  obtain ⟨⟨haccept, _⟩, ⟨hsize, _⟩, hvalues⟩ := hscanned
  simp only [Bool.and_eq_true, beq_iff_eq] at hlocal hglobal
  obtain ⟨⟨hlookup, hcurrent⟩, hfunction⟩ := hlocal
  obtain rfl := eq_of_beq hitem
  have hscan := (Pass.scan_eq_ok_iff.mp hscan).1
  have hdrafts : o.Drafts d := .of_start hstart
  have hlast : o.Drafts t.target :=
    hdrafts.trans (Trails.of_ok (Pass.auto_trails d) hauto).1
  refine ⟨o, ho, t.target, hlast, hfunction.symm, fun memory => ?_⟩
  obtain ⟨hl, hg⟩ := subscripts_confined "b" 8 _ _ ho hlast hfunction.symm laid_spread memory
  obtain ⟨id, _, _, hresolve, hsetUp, hserves⟩ := hl "v" 3 ⟨_, d⟩ t _ hdrafts hscan hauto (.refl _)
  have hid := (hresolve t.target (.refl _)).symm.trans (Build.resolve_local hlookup).1
  obtain rfl : id = 1 := by
    cases hid
    rfl
  refine ⟨?_, hserves, ?_⟩
  · obtain ⟨c, hr, hblock, hindex⟩ := reaches_spread memory
    have hstands : spread.Stands t.target c := by
      refine ⟨hblock.trans hcurrent.symm, ?_⟩
      rw [hfunction, hcurrent, hindex]
      exact ⟨_, _, rfl, rfl, rfl⟩
    exact ⟨c, hr, hstands, hsetUp c hr hstands⟩
  · obtain ⟨head, data, _, _, _, hhead, hdata, _, _, hserves⟩ :=
      hg 2 [.word 7] ⟨"w", behind "[2] 7;"⟩ t' (by decide)
        ⟨⟨_, _, _, haccept, hsize, hvalues⟩, haccepted⟩ fun x hx _ => hglobal ▸ hx
    obtain rfl : 16 = head := Option.some.inj hhead
    obtain rfl : 24 = data := Option.some.inj hdata
    have hlength : Program.arrayLength (2 : Word).count [.word 7] = 2 := by decide
    have hwords : max (max (2 : Word).toInt.toNat [Constant.word 7].length) 1 = 2 := by decide
    rw [hlength, hwords] at hserves
    exact hserves

end Session
end BCompiler
