import BCompiler.Proofs.Grammar.Parse

/-!
Reading the text of an expression.

An expression is a tree of the whole language, with the same text and the same code, so its text is
read as that of the tree.
-/
namespace BCompiler

namespace Expr

variable {size : Nat}

/-- The tree of an expression. -/
def tree : Expr → Tree size .word
  | constant n => .constant n
  | name x => .read (.name x)
  | negate e => .negate e.tree
  | not e => .not e.tree
  | binary op l r => .binary op l.tree r.tree
  | conditional c t e => .conditional c.tree t.tree e.tree
  | assign op x e => .assign op (.name x) e.tree
  | stepBefore k x => .read (.stepBefore k (.name x))
  | stepAfter k x => .stepAfter k (.name x)

theorem level_tree (e : Expr) : (e.tree : Tree size .word).level = e.level := by
  cases e <;> rfl

theorem bare_tree (e : Expr) : (e.tree : Tree size .word).bare = e.bare := by
  induction e with
  | constant | name | stepBefore | stepAfter => rfl
  | negate e ih | not e ih => simp only [tree, Tree.bare, bare, level_tree, ih]
  | binary op l r ihl ihr => simp only [tree, Tree.bare, bare, level_tree, ihl, ihr]
  | conditional c t e ihc iht ihe =>
      simp only [tree, Tree.bare, bare, level_tree, ihc, iht, ihe]
  | assign op x e ih =>
      simp only [tree, Tree.bare, bare, level_tree, ih]
      rfl

theorem code_tree (e : Expr) : (e.tree : Tree size .word).code = e.value := by
  induction e with
  | constant n => rfl
  | name x => rfl
  | negate e ih | not e ih =>
      refine (Build.bind_rvalue_of_word ?_).symm
      rw [tree, Tree.code, ih, value, bind_assoc, bind_assoc]
      rfl
  | binary op l r ihl ihr =>
      refine (Build.bind_rvalue_of_word ?_).symm
      simp only [denote, tree, Tree.code, ihl, ihr, value, bind_assoc]
  | conditional c t e ihc iht ihe =>
      refine (Build.bind_rvalue_of_word ?_).symm
      simp only [denote, tree, Tree.code, ihc, iht, ihe, value, bind_assoc]
  | assign op x e ih =>
      refine (Build.bind_rvalue_of_word ?_).symm
      rw [denote, tree, Tree.code, bind_assoc]
      refine congrArg (Build.resolve x.text >>= ·) (funext fun a => ?_)
      cases a with
      | address address =>
          simp only [ih, value, Build.lvalue, pure_bind, bind_assoc]
      | word | function => rfl
  | stepBefore k x =>
      rw [value, denote, tree, Tree.code, Tree.code]
      simp only [Tree.apply_count]
      rfl
  | stepAfter k x =>
      refine (Build.bind_rvalue_of_word ?_).symm
      simp only [denote, tree, Tree.code, bind_assoc, pure_bind]

theorem tokens_full (e : Expr) : e.tokens fullLevel = e.bare := by
  have hlevel := (e.tree : Tree 0 .word).level_le
  rw [level_tree] at hlevel
  rw [tokens, decide_eq_false (Nat.not_lt_of_le hlevel)]
  rfl

theorem bare_ne_nil (e : Expr) : e.bare ≠ [] := by
  cases e <;> simp [bare]

/-- A name at the beginning is that of a variable. -/
theorem mem_names_of_head {e : Expr} {x : Name} (h : e.bare.head? = some x.text) :
    x ∈ e.names := by
  have hname : ∀ {token : String}, some token = some x.text → isName token := by
    rintro _ ⟨⟩
    exact x.isName
  have hvariable : ∀ {y : Name}, some y.text = some x.text → x ∈ [y] := fun h =>
    List.mem_singleton.mpr (Name.text_injective (Option.some.inj h.symm))
  have hleft : ∀ {e : Expr} {needed : Bool} {tokens : List String},
      (enclosed needed e.bare ++ tokens).head? = some x.text → e.bare.head? = some x.text := by
    intro e needed tokens h
    cases needed with
    | true => cases hname h
    | false =>
        obtain ⟨token, tail, hb⟩ := List.exists_cons_of_ne_nil e.bare_ne_nil
        rw [hb]
        rwa [enclosed, if_neg Bool.false_ne_true, hb] at h
  induction e with
  | constant n =>
      obtain ⟨first, hb, hd⟩ := n.begins
      have hstart : isNameStart first = false := by
        rw [Bool.eq_false_iff]
        exact fun hs => Bool.false_ne_true ((isDigit_eq_false_of_isNameStart hs).symm.trans hd)
      exact absurd (hname h) (by rw [hb.isName_eq_false hstart]; decide)
  | name y => exact hvariable h
  | negate | not => cases hname h
  | stepBefore k y => exact absurd (hname h) (by rw [k.isName_symbol]; decide)
  | stepAfter k y => exact hvariable h
  | assign op y e ih => exact List.mem_append_left e.names (hvariable h)
  | binary op l r ih _ => exact List.mem_append_left _ (ih (hleft h))
  | conditional c t e ih _ _ =>
      rw [bare, List.append_assoc] at h
      exact List.mem_append_left _ (List.mem_append_left _ (ih (hleft h)))

/-- An expression is a term, and one that may begin a statement if its variables may. -/
theorem exists_term (size : Nat) (e : Expr) : ∃ t : Term size (.level fullLevel),
    t.tokens = e.tokens fullLevel ∧ t.value = e.value ∧
      ((∀ x ∈ e.names, x.isPlain) → t.isPlain) := by
  have hspelled := (e.tree : Tree size .word).spelled_bare fullLevel e.tree.level_le
  obtain ⟨t, ht, hvalue⟩ := hspelled.exists_term
  rw [bare_tree] at ht
  rw [code_tree] at hvalue
  refine ⟨t, ht.trans e.tokens_full.symm, hvalue, fun hp => ?_⟩
  refine t.isPlain_of_head fun x hx => hp x (mem_names_of_head ?_)
  rwa [ht] at hx

end Expr
end BCompiler
