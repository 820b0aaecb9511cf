import BCompiler.Command.Path
import BCompiler.Proofs.Assembly.Layout

/-!
Paths and their extensions.

A path is told by its parts. What replaces the extension of a source is read off them: the stem of
the file name stays, with all that stands in front of it.
-/
namespace BCompiler.Path

theorem intercalate_parts (path : String) : "/".intercalate (parts path) = path := by
  rw [← String.toList_inj, String.toList_intercalate, parts, List.map_map]
  have hparts : String.toList ∘ String.ofList = id := funext fun _ => String.toList_ofList
  rw [hparts, List.map_id]
  exact List.intercalate_splitOn '/'

theorem parts_intercalate {names : List String} (hne : names ≠ [])
    (h : ∀ name ∈ names, '/' ∉ name.toList) : parts ("/".intercalate names) = names := by
  have hsplit : List.splitOn '/' (['/'].intercalate (names.map String.toList)) =
      names.map String.toList := by
    refine List.splitOn_intercalate '/' (fun part hpart => ?_) (by simpa using hne)
    obtain ⟨name, hname, rfl⟩ := List.mem_map.mp hpart
    exact h name hname
  rw [parts, String.toList_intercalate]
  change (List.splitOn '/' (['/'].intercalate (names.map String.toList))).map String.ofList = names
  rw [hsplit, List.map_map]
  have hnames : String.ofList ∘ String.toList = id := funext fun _ => String.ofList_toList
  rw [hnames, List.map_id]

theorem slash_notMem_of_mem_parts {path name : String} (h : name ∈ parts path) :
    '/' ∉ name.toList := by
  obtain ⟨part, hpart, rfl⟩ := List.mem_map.mp h
  rw [String.toList_ofList]
  exact notMem_of_mem_splitOn hpart

theorem intercalate_concat_append (names : List String) (a b : String) :
    "/".intercalate (names ++ [a ++ b]) = "/".intercalate (names ++ [a]) ++ b := by
  induction names with
  | nil => simp
  | cons name names ih =>
      rw [List.cons_append, List.cons_append, String.intercalate_cons_of_ne_nil (by simp), ih,
        String.intercalate_cons_of_ne_nil (by simp), String.append_assoc, String.append_assoc,
        String.append_assoc]

theorem intercalate_append (front behind : List String) (name : String) :
    "/".intercalate (front ++ name :: behind) =
      "/".intercalate (front ++ [name]) ++ String.join (behind.map fun part => "/" ++ part) := by
  induction behind generalizing front name with
  | nil => simp
  | cons part behind ih =>
      have hnext := ih (front ++ [name]) part
      rw [List.append_assoc] at hnext
      rw [← List.singleton_append, ← List.append_assoc, List.append_assoc, hnext,
        String.intercalate_append_of_ne_nil (by simp) (by simp), String.intercalate_singleton,
        List.map_cons, String.join_cons, String.append_assoc, String.append_assoc,
        String.append_assoc]

/-- A dot inside a name that no other follows is where the name falls into two parts. -/
theorem splitName_append {stem ending : String} (hstem : stem ≠ "") (h : '.' ∉ ending.toList) :
    splitName (stem ++ "." ++ ending) = (stem, some ending) := by
  have hreversed : (stem ++ "." ++ ending).toList.reverse =
      ending.toList.reverse ++ '.' :: stem.toList.reverse := by simp
  have htake : (ending.toList.reverse ++ '.' :: stem.toList.reverse).takeWhile
      (fun c => c != '.') = ending.toList.reverse := by
    rw [List.takeWhile_append_of_pos]
    · simp
    · intro c hc
      have hne : c ≠ '.' := fun he => h (he ▸ List.mem_reverse.mp hc)
      simpa using hne
  unfold splitName
  dsimp only
  rw [hreversed, htake, List.drop_left]
  cases hrest : stem.toList.reverse with
  | nil => exact absurd (String.toList_eq_nil_iff.mp (List.reverse_eq_nil_iff.mp hrest)) hstem
  | cons first rest => simp [← hrest]

theorem eq_append_of_splitName {name ending : String} (h : (splitName name).2 = some ending) :
    ∃ stem, stem ≠ "" ∧ '.' ∉ ending.toList ∧ name = stem ++ "." ++ ending := by
  unfold splitName at h
  dsimp only at h
  split at h
  · next dot first rest hdrop =>
      have hsplit := List.takeWhile_append_dropWhile (p := fun c => c != '.')
        (l := name.toList.reverse)
      have hbehind : name.toList.reverse.dropWhile (fun c => c != '.') = dot :: first :: rest := by
        rw [← hdrop]
        exact List.drop_left.symm.trans (congrArg _ hsplit)
      have hdot : dot = '.' := by
        have hhead := List.head?_dropWhile_not (fun c => c != '.') name.toList.reverse
        rw [hbehind] at hhead
        simpa using hhead
      obtain rfl : _ = ending := Option.some.inj h
      refine ⟨String.ofList (first :: rest).reverse, ?_, ?_, ?_⟩
      · simp
      · intro hmem
        rw [String.toList_ofList, List.mem_reverse] at hmem
        exact absurd (List.all_eq_true.mp List.all_takeWhile _ hmem) (by decide)
      · rw [hbehind, hdot] at hsplit
        have hname := congrArg List.reverse hsplit
        rw [List.reverse_reverse] at hname
        rw [← String.toList_inj]
        exact hname.symm.trans (by simp)
  · cases h

/-- The parts of a path with a file name: those in front of it, and behind it none that lead
elsewhere. -/
theorem parts_of_fileName? {path name : String} (h : fileName? path = some name) :
    ∃ before stills : List String, name ≠ ".." ∧ isStill name = false ∧
      (∀ part ∈ stills, isStill part) ∧ parts path = before.reverse ++ name :: stills := by
  obtain ⟨hhead, hup⟩ := Option.filter_eq_some_iff.mp h
  obtain ⟨before, hmoving⟩ := List.head?_eq_some_iff.mp hhead
  have hmoves := List.head?_dropWhile_not isStill (parts path).reverse
  rw [← moving, hhead] at hmoves
  refine ⟨before, ((parts path).reverse.takeWhile isStill).reverse, by simpa using hup, hmoves,
    fun part hpart => List.all_eq_true.mp List.all_takeWhile part (List.mem_reverse.mp hpart), ?_⟩
  have hsplit := List.takeWhile_append_dropWhile (p := isStill) (l := (parts path).reverse)
  change _ ++ moving path = _ at hsplit
  rw [hmoving] at hsplit
  have hparts := congrArg List.reverse hsplit
  rw [List.reverse_reverse] at hparts
  exact hparts.symm.trans (by simp)

theorem moving_intercalate {before stills : List String} {name : String}
    (hslash : ∀ part ∈ before.reverse ++ name :: stills, '/' ∉ part.toList)
    (hname : isStill name = false) (hstills : ∀ part ∈ stills, isStill part) :
    moving ("/".intercalate (before.reverse ++ name :: stills)) = name :: before := by
  unfold moving
  rw [parts_intercalate (by simp) hslash, List.reverse_append, List.reverse_cons,
    List.reverse_reverse, List.append_assoc,
    List.dropWhile_append_of_pos fun part hpart => hstills part (List.mem_reverse.mp hpart)]
  simp [hname]

/-- To cut a path by a character at a part that leads nowhere leaves out the part or makes it empty.
-/
theorem dropLast_intercalate {front : List String} (hne : front ≠ []) {last : String}
    (h : isStill last) :
    String.ofList ("/".intercalate (front ++ [last])).toList.dropLast = "/".intercalate front ∨
      String.ofList ("/".intercalate (front ++ [last])).toList.dropLast =
        "/".intercalate (front ++ [""]) := by
  have hlast : last = "" ∨ last = "." := by simpa [isStill] using h
  have hjoin (part : String) := String.intercalate_append_of_ne_nil (s := "/") hne
    (List.cons_ne_nil part [])
  simp only [hjoin, String.intercalate_singleton, ← String.toList_inj]
  rcases hlast with rfl | rfl
  · left
    simp
  · right
    have hdot : ("/".intercalate front ++ "/" ++ ".").toList =
        ("/".intercalate front ++ "/").toList ++ ['.'] := String.toList_append
    rw [hdot, List.dropLast_concat]
    simp

/-- A path that is cut by a character behind its file name still has that name. -/
theorem moving_dropLast {before stills : List String} {name : String} (hne : stills ≠ [])
    (hslash : ∀ part ∈ before.reverse ++ name :: stills, '/' ∉ part.toList)
    (hname : isStill name = false) (hstills : ∀ part ∈ stills, isStill part) :
    moving (String.ofList ("/".intercalate (before.reverse ++ name :: stills)).toList.dropLast) =
      name :: before := by
  obtain ⟨others, last, rfl⟩ : ∃ others last, stills = others ++ [last] :=
    ⟨_, _, (List.dropLast_concat_getLast hne).symm⟩
  have hothers : ∀ part ∈ others, isStill part := fun part hpart =>
    hstills part (List.mem_append_left _ hpart)
  have hlist : before.reverse ++ name :: (others ++ [last]) =
      (before.reverse ++ name :: others) ++ [last] := by simp
  rw [hlist] at hslash ⊢
  rcases dropLast_intercalate (List.append_ne_nil_of_right_ne_nil before.reverse
    (List.cons_ne_nil name others)) (hstills last (by simp)) with hcut | hcut <;> rw [hcut]
  · exact moving_intercalate (fun part hpart => hslash part (List.mem_append_left _ hpart)) hname
      hothers
  · rw [List.append_assoc, List.cons_append]
    refine moving_intercalate (fun part hpart => ?_) hname fun part hpart => ?_
    · rw [← List.cons_append, ← List.append_assoc, List.mem_append, List.mem_singleton] at hpart
      rcases hpart with hpart | rfl
      · exact hslash part (List.mem_append_left _ hpart)
      · exact List.not_mem_nil
    · rcases List.mem_append.mp hpart with hpart | hpart
      · exact hothers part hpart
      · rw [List.mem_singleton.mp hpart]
        rfl

/-- The extension of a source is replaced, whatever stands behind its name. The exception is the
name that is the way up without its extension, with nothing behind it. -/
theorem moduleFile_eq {path : String} (h : extension? path = some "b") :
    ∃ (stem : String) (stills : List String), (∀ part ∈ stills, isStill part) ∧
      path = stem ++ ".b" ++ String.join (stills.map fun part => "/" ++ part) ∧
      moduleFile path =
        if stills = [] ∧ fileName? path = some "..b" then stem ++ "." else stem ++ ".ll" := by
  obtain ⟨name, hname, hending⟩ := Option.bind_eq_some_iff.mp h
  obtain ⟨base, hbase, _, rfl⟩ := eq_append_of_splitName hending
  obtain ⟨before, stills, hup, hmoves, hstills, hparts⟩ := parts_of_fileName? hname
  have hslash : ∀ part ∈ before.reverse ++ (base ++ "." ++ "b") :: stills, '/' ∉ part.toList :=
    fun part hpart => slash_notMem_of_mem_parts (hparts ▸ hpart)
  have hb : "." ++ "b" = ".b" := rfl
  have hpath : path = "/".intercalate (before.reverse ++ [base]) ++ ".b" ++
      String.join (stills.map fun part => "/" ++ part) := by
    rw [← intercalate_parts path, hparts, intercalate_append, String.append_assoc, hb,
      intercalate_concat_append]
  refine ⟨"/".intercalate (before.reverse ++ [base]), stills, hstills, hpath, ?_⟩
  unfold moduleFile setExtension
  by_cases hne : stills = []
  · -- the path ends in the name, so that what is left of it ends in the dot
    subst hne
    have hcut : String.ofList path.toList.dropLast =
        "/".intercalate (before.reverse ++ [base ++ "."]) := by
      rw [hpath, intercalate_concat_append, ← String.toList_inj]
      simp
    have hdotted : moving (String.ofList path.toList.dropLast) = (base ++ ".") :: before := by
      rw [hcut]
      refine moving_intercalate (fun part hpart => ?_) ?_ fun _ hpart =>
        absurd hpart List.not_mem_nil
      · rcases List.mem_append.mp hpart with hpart | hpart
        · exact hslash part (List.mem_append_left _ hpart)
        · rw [List.mem_singleton.mp hpart]
          have hfull := hslash _ (List.mem_append_right _ (List.mem_cons_self ..))
          simp only [String.toList_append, List.mem_append, not_or] at hfull ⊢
          exact hfull.1
      · simp [isStill, hbase]
    have hway : base ++ "." = ".." ↔ base = "." := by
      have hdots : ".." = "." ++ "." := rfl
      rw [hdots, String.append_left_inj]
    have hfile : base ++ "." ++ "b" = "..b" ↔ base = "." := by
      have hdots : "..b" = ".." ++ "b" := rfl
      rw [hdots, String.append_left_inj, hway]
    rw [hdotted, hname]
    simp only [beq_iff_eq, hway, true_and, Option.some.injEq, hfile]
    split
    · rw [hcut, intercalate_concat_append]
    · have hstem : splitName (base ++ "." ++ "") = (base, some "") :=
        splitName_append hbase List.not_mem_nil
      have hll : "." ++ "ll" = ".ll" := rfl
      rw [String.append_empty] at hstem
      rw [hstem, ← intercalate_concat_append, String.append_assoc, hll]
  · have hcut := moving_dropLast hne hslash hmoves hstills
    rw [← hparts, intercalate_parts] at hcut
    rw [hcut, if_neg fun hc => hne hc.1]
    dsimp only
    have hll : "." ++ "ll" = ".ll" := rfl
    rw [if_neg (by simpa using hup), splitName_append hbase (by decide),
      ← intercalate_concat_append, String.append_assoc, hll]

end BCompiler.Path
