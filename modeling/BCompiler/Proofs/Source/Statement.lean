import BCompiler.Proofs.Source.Keyword
import BCompiler.Proofs.Source.Operator
import BCompiler.Source.Statement

/-!
Reading the words and marks of statements.

A statement that begins with a name may be a labelled one, so the name is read, and pushed back if
no colon follows it. It then stands directly in front of the next mark, which changes nothing: a
name ends where a mark begins.
-/
namespace BCompiler

/-- Whether a variable may have the name: it begins no statement and no arm of one. -/
def Name.isPlain (x : Name) : Bool :=
  (StatementHead.ofKeyword? x.text).isNone && x.text != "else"

theorem Name.isPlain_iff {x : Name} :
    x.isPlain ↔ StatementHead.ofKeyword? x.text = none ∧ x.text ≠ "else" := by
  simp [isPlain]

/-- A token that ends a name in front of it and does not make it a label. -/
def Divides (token : String) : Prop :=
  ∃ mark, Begins token mark ∧ isNameChar mark = false ∧ mark ≠ ':'

theorem divides_of_mark {token : String} {mark : Char} (h : token.toList = [mark])
    (hb : isBlank mark = false) (hn : isNameChar mark = false) (hc : mark ≠ ':') : Divides token :=
  ⟨mark, begins_of_mark h hb, hn, hc⟩

theorem divides_semicolon : Divides ";" := divides_of_mark rfl rfl rfl (by decide)

theorem Op.divides (op : Op) : Divides op.symbol := by
  rcases op with op | op <;> cases op
  all_goals exact ⟨_, ⟨_, rfl, rfl, by decide⟩, rfl, by decide⟩

/-- The tokens begin an expression that stands as a statement. -/
inductive Opening : List String → Prop
  | name {x : Name} {next : String} {tokens : List String} :
      x.isPlain → Divides next → Opening (x.text :: next :: tokens)
  | mark {token : String} {first : Char} {tokens : List String} :
      Begins token first → isNameStart first = false → first ∉ ['{', '}', ';'] →
        Opening (token :: tokens)

namespace Scan

variable {token next : String} {first : Char} {tokens : List String}

theorem statementHead_compound : Reads statementHead ("\x7b" :: tokens) .compound tokens := by
  intro c hc
  have hb : Begins "\x7b" '{' := begins_of_mark rfl rfl
  obtain ⟨c₁, h₁, hu⟩ := peekMark_solid hb c hc
  obtain ⟨c₂, h₂, hc₂⟩ := read_mark rfl hu
  refine ⟨c₂, bind_eq_ok_iff.mpr ⟨some '{', c₁, h₁, ?_⟩, hc₂⟩
  exact bind_eq_ok_iff.mpr ⟨some '{', c₂, h₂, rfl⟩

theorem statementHead_empty : Reads statementHead (";" :: tokens) .empty tokens := by
  intro c hc
  have hb : Begins ";" ';' := begins_of_mark rfl rfl
  obtain ⟨c₁, h₁, hu⟩ := peekMark_solid hb c hc
  obtain ⟨c₂, h₂, hc₂⟩ := read_mark rfl hu
  refine ⟨c₂, bind_eq_ok_iff.mpr ⟨some ';', c₁, h₁, ?_⟩, hc₂⟩
  exact bind_eq_ok_iff.mpr ⟨some ';', c₂, h₂, rfl⟩

theorem statementHead_mark (hb : Begins token first) (hn : isNameStart first = false)
    (hf : first ∉ ['{', '}', ';']) :
    Reads statementHead (token :: tokens) .expression (token :: tokens) := by
  simp only [List.mem_cons, List.not_mem_nil, or_false, not_or] at hf
  obtain ⟨hopen, _, hsemicolon⟩ := hf
  refine (peekMark_token hb).bind ?_
  simp only [hn]
  exact .pure _

theorem statementHead_keyword (x : Name) {head : StatementHead}
    (h : StatementHead.ofKeyword? x.text = some head) :
    Reads statementHead (x.text :: tokens) head tokens := by
  obtain ⟨first, hb, hstart⟩ := x.begins
  have hopen : first ≠ '{' := ne_of_isNameStart hstart rfl
  have hsemicolon : first ≠ ';' := ne_of_isNameStart hstart rfl
  refine (peekMark_token hb).bind ?_
  simp only [hstart, if_true]
  refine (name_token x).bind ?_
  rw [h]
  exact .pure head

/-- A variable in front of an expression is pushed back. -/
theorem statementHead_name (x : Name) (hx : x.isPlain) (hd : Divides next) {c : Cursor}
    (hc : c.At (x.text :: next :: tokens)) :
    ∃ c', statementHead c = .ok .expression c' ∧
      c'.unread = x.text.toList ++ (next.toList ++ spaced tokens) := by
  obtain ⟨first, hb, hstart⟩ := x.begins
  have hopen : first ≠ '{' := ne_of_isNameStart hstart rfl
  have hsemicolon : first ≠ ';' := ne_of_isNameStart hstart rfl
  obtain ⟨mark, hmark, _, hcolon⟩ := hd
  obtain ⟨c₁, h₁, hc₁⟩ := peekMark_token hb c hc
  have hname : Reads name (x.text :: next :: tokens) x.text (next :: tokens) := name_token x
  obtain ⟨c₂, h₂, hc₂⟩ := hname c₁ hc₁
  obtain ⟨c₃, h₃, hu⟩ := peekMark_solid hmark c₂ hc₂
  have haccept : accept ':' c₂ = .ok false c₃ := by
    refine bind_eq_ok_iff.mpr ⟨some mark, c₃, h₃, ?_⟩
    rw [if_neg (by simpa using hcolon)]
    rfl
  refine ⟨c₃.pushBackAll x.text.toList, bind_eq_ok_iff.mpr ⟨some first, c₁, h₁, ?_⟩, ?_⟩
  · simp only [hstart, if_true]
    refine bind_eq_ok_iff.mpr ⟨x.text, c₂, h₂, ?_⟩
    rw [(Name.isPlain_iff.mp hx).1]
    exact bind_eq_ok_iff.mpr ⟨false, c₃, haccept, rfl⟩
  · rw [Cursor.unread_pushBackAll, hu]

theorem sign_name {x : Name} {text : List Char} {c : Cursor}
    (hc : c.unread = x.text.toList ++ text) : sign c = .ok none c := by
  obtain ⟨first, ⟨rest, he, _⟩, hstart⟩ := x.begins
  refine sign_solid (blanks_name hc) (by rw [hc, he]; rfl) fun hm => ?_
  simp only [List.mem_cons, List.not_mem_nil, or_false] at hm
  rcases hm with rfl | rfl | rfl | rfl | rfl <;> cases hstart

/-- A name that stands directly in front of a mark is read as if a blank divided them. -/
theorem atom_joined {x : Name} (hd : Divides next) {c : Cursor}
    (hc : c.unread = x.text.toList ++ (next.toList ++ spaced tokens)) :
    atom c = atom { c with unread := x.text.toList ++ spaced (next :: tokens) } := by
  obtain ⟨mark, hmark, hchar, _⟩ := hd
  have hhead : ∀ ch ∈ (next.toList ++ spaced tokens).head?, isNameChar ch = false := by
    obtain ⟨rest, he, _⟩ := hmark
    rw [he]
    rintro _ ⟨⟩
    exact hchar
  have hskip : (c.skip x.text.toList.length).unread = next.toList ++ spaced tokens := by
    rw [Cursor.unread_skip, hc, List.drop_left]
  obtain ⟨c₁, h₁, _⟩ := peekMark_solid hmark _ (at_of_unread hskip)
  rw [atom_solid (blanks_name hc) hc hhead h₁]
  refine (atom_solid (blanks_name rfl) rfl (fun _ => isNameChar_spaced) ?_).symm
  rw [← h₁]
  simp only [Cursor.skip, hc, List.drop_left, List.take_left]
  rfl

theorem atEnd_token (hb : Begins token first) :
    Reads atEnd (token :: tokens) false (token :: tokens) := by
  intro c hc
  refine ⟨c, ?_, hc⟩
  obtain ⟨rest, he, _⟩ := hb
  have hne : c.unread.isEmpty = false := by
    rcases hc with hc | hc
    · rw [hc]
      rfl
    · rw [spaced_cons, he] at hc
      rw [(List.cons.inj hc).2]
      rfl
  rw [atEnd, hne]

theorem someName_token (x : Name) (what : String) :
    Reads (someName what) (x.text :: tokens) x.text tokens := by
  refine (name_token x).bind ?_
  rw [if_neg x.text_ne_empty]
  exact .pure _

theorem another_comma (close : Char) (place : String) :
    Reads (another close place) ("," :: tokens) true tokens := by
  have hmark : Reads readMark ("," :: tokens) (some ',') tokens := readMark_token rfl rfl
  refine hmark.bind ?_
  rw [if_pos rfl]
  exact .pure true

theorem another_close {close : Char} (h : token.toList = [close]) (hb : isBlank close = false)
    (hne : close ≠ ',') (place : String) :
    Reads (another close place) (token :: tokens) false tokens := by
  refine (readMark_token h hb).bind ?_
  rw [if_neg (by simpa using hne), if_pos rfl]
  exact .pure false

theorem keyword_token (word : Name) :
    Reads (keyword word.text) (word.text :: tokens) true tokens := by
  intro c hc
  obtain ⟨_, hb, _⟩ := word.begins
  obtain ⟨c₁, h₁, hu⟩ := blanks_token hb c hc
  have hname : leadingName c₁.unread = word.text.toList := by
    rw [hu, leadingName_append word.isName fun _ => isNameChar_spaced]
  refine ⟨_, keyword_true word h₁ hname, .inl ?_⟩
  rw [Cursor.unread_skip, hu, ← String.length_toList, List.drop_left]

theorem keyword_mark (word : Name) (hb : Begins token first) (hn : isNameStart first = false) :
    Reads (keyword word.text) (token :: tokens) false (token :: tokens) := by
  intro c hc
  obtain ⟨c₁, h₁, hu⟩ := blanks_token hb c hc
  refine ⟨c₁, keyword_false word h₁ ?_, at_of_unread hu⟩
  obtain ⟨rest, he, _⟩ := hb
  obtain ⟨_, ⟨_, hword, _⟩, _⟩ := word.begins
  rw [hu, he, hword]
  simp [leadingName, hn]

theorem keyword_other (word x : Name) (hne : x.text ≠ word.text) :
    Reads (keyword word.text) (x.text :: tokens) false (x.text :: tokens) := by
  intro c hc
  obtain ⟨_, hb, _⟩ := x.begins
  obtain ⟨c₁, h₁, hu⟩ := blanks_token hb c hc
  refine ⟨c₁, keyword_false word h₁ ?_, at_of_unread hu⟩
  rw [hu, leadingName_append x.isName fun _ => isNameChar_spaced]
  exact fun he => hne (String.toList_inj.mp he)

end Scan

/-- The tokens begin a statement: no block ends here, and no other arm of a conditional begins. -/
structure Starts (tokens : List String) : Prop where
  begins : ∃ token rest first, tokens = token :: rest ∧ Begins token first ∧ first ≠ '}'
  noElse : (Scan.keyword "else").Reads tokens false tokens

theorem starts_mark {token : String} {rest : List String} {first : Char} (hb : Begins token first)
    (hn : isNameStart first = false) (hne : first ≠ '}') : Starts (token :: rest) :=
  ⟨⟨token, rest, first, rfl, hb, hne⟩, Scan.keyword_mark ⟨"else", by decide⟩ hb hn⟩

theorem starts_name (x : Name) {rest : List String} (hne : x.text ≠ "else") :
    Starts (x.text :: rest) := by
  obtain ⟨first, hb, hstart⟩ := x.begins
  refine ⟨⟨x.text, rest, first, rfl, hb, ?_⟩, Scan.keyword_other ⟨"else", by decide⟩ x hne⟩
  rintro rfl
  cases hstart

theorem Opening.starts {tokens : List String} (h : Opening tokens) : Starts tokens := by
  cases h with
  | name hx _ => exact starts_name _ (Name.isPlain_iff.mp hx).2
  | mark hb hn hf =>
      refine starts_mark hb hn ?_
      rintro rfl
      exact hf (by decide)

end BCompiler
