import Mathlib.Data.List.Sort
import Mathlib.Data.String.Basic
import ClientLoom.FileTree

/-! # The order of a walk and the order of names

A walk meets files directory by directory, so it compares their places name by name
(`comesBefore_cons`).  Comparing the whole paths character by character is another order, since some
characters stand before the slash: a directory comes before a file whose name goes on behind the
name of the directory, with a dot for instance, but its files come after it by their paths.  Such
files cross, and apart from them the two orders are the same (`crosses_iff`). -/

namespace ClientLoom
namespace FileTree

variable {p x y : Place}

theorem comesBefore_cons {a b : String} :
    comesBefore (a :: x) (b :: y) = true ↔ a < b ∨ a = b ∧ comesBefore x y = true := by
  rw [comesBefore]
  by_cases hab : a = b <;> simp [hab]

theorem comesBefore_trans (x y z : Place) (hxy : comesBefore x y = true)
    (hyz : comesBefore y z = true) : comesBefore x z = true := by
  induction x generalizing y z with
  | nil => rfl
  | cons a x ih =>
      cases y with
      | nil => cases hxy
      | cons b y =>
          cases z with
          | nil => cases hyz
          | cons c z =>
              rw [comesBefore_cons] at hxy hyz ⊢
              rcases hxy with hab | ⟨rfl, hxy⟩
              · rcases hyz with hbc | ⟨rfl, -⟩
                · exact .inl (hab.trans hbc)
                · exact .inl hab
              · exact hyz.imp_right fun ⟨hac, hyz⟩ => ⟨hac, ih y z hxy hyz⟩

theorem comesBefore_total (x y : Place) : (comesBefore x y || comesBefore y x) = true := by
  rw [Bool.or_eq_true]
  induction x generalizing y with
  | nil => exact .inl rfl
  | cons a x ih =>
      cases y with
      | nil => exact .inr rfl
      | cons b y =>
          rw [comesBefore_cons, comesBefore_cons]
          rcases lt_trichotomy a b with hab | rfl | hba
          · exact .inl (.inl hab)
          · exact (ih y).imp (fun h => .inr ⟨rfl, h⟩) fun h => .inr ⟨rfl, h⟩
          · exact .inr (.inl hba)

theorem comesBefore_antisymm (hxy : comesBefore x y = true) (hyx : comesBefore y x = true) :
    x = y := by
  induction x generalizing y with
  | nil =>
      cases y with
      | nil => rfl
      | cons b y => cases hyx
  | cons a x ih =>
      cases y with
      | nil => cases hxy
      | cons b y =>
          rcases comesBefore_cons.mp hxy with hab | ⟨rfl, hrest⟩
          · rcases comesBefore_cons.mp hyx with hba | ⟨rfl, -⟩
            · exact absurd hba (lt_asymm hab)
            · exact absurd hab (lt_irrefl _)
          · rcases comesBefore_cons.mp hyx with haa | ⟨-, hrest'⟩
            · exact absurd haa (lt_irrefl _)
            · rw [ih hrest hrest']

/-! ### Paths of places, character by character -/

theorem join_cons_cons (a b : String) (x : Place) :
    ("/".intercalate (a :: b :: x)).toList =
      a.toList ++ '/' :: ("/".intercalate (b :: x)).toList := by
  rw [String.intercalate_cons_cons]
  simp

/-- How a path begins: with its first name, which ends it or is followed by a slash. -/
theorem exists_join_cons (a : String) (x : Place) :
    ∃ rest, ("/".intercalate (a :: x)).toList = a.toList ++ rest ∧
      (x = [] ∧ rest = [] ∨ x ≠ [] ∧ ∃ more, rest = '/' :: more) := by
  cases x with
  | nil => exact ⟨[], by simp, .inl ⟨rfl, rfl⟩⟩
  | cons b x => exact ⟨_, join_cons_cons a b x, .inr ⟨List.cons_ne_nil _ _, _, rfl⟩⟩

theorem append_lt_append_iff {cs ds es : List Char} : cs ++ ds < cs ++ es ↔ ds < es := by
  induction cs with
  | nil => rfl
  | cons c cs ih => simpa [List.cons_lt_cons_iff] using ih

theorem join_cons_lt_iff {a : String} (hx : x ≠ []) (hy : y ≠ []) :
    "/".intercalate (a :: y) < "/".intercalate (a :: x) ↔
      "/".intercalate y < "/".intercalate x := by
  obtain ⟨b, x, rfl⟩ := List.exists_cons_of_ne_nil hx
  obtain ⟨c, y, rfl⟩ := List.exists_cons_of_ne_nil hy
  rw [String.lt_iff_toList_lt, join_cons_cons, join_cons_cons, append_lt_append_iff,
    List.cons_lt_cons_self, String.lt_iff_toList_lt]

/-- A text before another begins it, or is smaller where they first differ. -/
theorem begins_or_differs {cs ds : List Char} (h : cs < ds) :
    (∃ c rest, ds = cs ++ c :: rest) ∨
      ∃ pre u v cs' ds', cs = pre ++ u :: cs' ∧ ds = pre ++ v :: ds' ∧ u < v := by
  induction cs generalizing ds with
  | nil =>
      cases ds with
      | nil => cases h
      | cons d ds => exact .inl ⟨d, ds, rfl⟩
  | cons c cs ih =>
      cases ds with
      | nil => cases h
      | cons d ds =>
          rcases List.cons_lt_cons_iff.mp h with hcd | ⟨rfl, hrest⟩
          · exact .inr ⟨[], c, d, cs, ds, rfl, rfl, hcd⟩
          · rcases ih hrest with ⟨e, rest, rfl⟩ | ⟨pre, u, v, cs', ds', rfl, rfl, huv⟩
            · exact .inl ⟨e, rest, rfl⟩
            · exact .inr ⟨c :: pre, u, v, cs', ds', rfl, rfl, huv⟩

/-! ### Files that cross -/

/-- The first place goes through a directory, and the second through a name beside it that goes on
behind the name of the directory with a character before the slash. -/
def Crosses (x y : Place) : Prop :=
  ∃ pre a x' c cs y', x = pre ++ a :: x' ∧ x' ≠ [] ∧ c < '/' ∧
    y = pre ++ (a ++ String.ofList (c :: cs)) :: y'

theorem Crosses.cons {a : String} (h : Crosses x y) : Crosses (a :: x) (a :: y) := by
  obtain ⟨pre, b, x', c, cs, y', rfl, hx', hc, rfl⟩ := h
  exact ⟨a :: pre, b, x', c, cs, y', rfl, hx', hc, rfl⟩

theorem Crosses.orders (h : Crosses x y) :
    comesBefore x y = true ∧ "/".intercalate y < "/".intercalate x := by
  obtain ⟨pre, a, x', c, cs, y', rfl, hx', hc, rfl⟩ := h
  induction pre with
  | nil =>
      have hlonger : a < a ++ String.ofList (c :: cs) := by
        rw [String.lt_iff_toList_lt, String.toList_append, String.toList_ofList]
        simpa using @List.append_left_lt _ _ a.toList [] (c :: cs) (List.nil_lt_cons c cs)
      refine ⟨comesBefore_cons.mpr (.inl hlonger), ?_⟩
      obtain ⟨rest, hrest, ⟨hnil, -⟩ | ⟨-, more, rfl⟩⟩ := exists_join_cons a x'
      · exact absurd hnil hx'
      obtain ⟨rest', hrest', -⟩ := exists_join_cons (a ++ String.ofList (c :: cs)) y'
      rw [List.nil_append, List.nil_append, String.lt_iff_toList_lt, hrest, hrest',
        String.toList_append, String.toList_ofList, List.append_assoc, append_lt_append_iff]
      exact List.cons_lt_cons_iff.mpr (.inl hc)
  | cons b pre ih =>
      obtain ⟨hbefore, hpath⟩ := ih
      refine ⟨?_, (join_cons_lt_iff (by simp) (by simp)).mpr hpath⟩
      rw [List.cons_append, List.cons_append, comesBefore, if_pos rfl]
      exact hbefore

/-- Where two places first differ, the order of their paths is that of the walk, unless they
cross. -/
theorem crosses_of_first_lt {a b : String} (hab : a < b) (hslash : '/' ∉ b.toList)
    (hpath : "/".intercalate (b :: y) < "/".intercalate (a :: x)) :
    Crosses (a :: x) (b :: y) := by
  obtain ⟨rest, hrest, hfollows⟩ := exists_join_cons a x
  obtain ⟨rest', hrest', -⟩ := exists_join_cons b y
  rw [String.lt_iff_toList_lt, hrest, hrest'] at hpath
  rcases begins_or_differs (String.lt_iff_toList_lt.mp hab) with
    ⟨c, cs, hb⟩ | ⟨pre, u, v, cs', ds', ha, hb, huv⟩
  · rw [hb, List.append_assoc, append_lt_append_iff] at hpath
    rcases hfollows with ⟨-, rfl⟩ | ⟨hx, more, rfl⟩
    · cases hpath
    · have hc : c < '/' := by
        rcases List.cons_lt_cons_iff.mp hpath with hc | ⟨rfl, -⟩
        · exact hc
        · exact absurd (hb ▸ List.mem_append_right _ List.mem_cons_self) hslash
      have hname : b = a ++ String.ofList (c :: cs) := by
        rw [← String.toList_inj, hb]
        simp
      exact ⟨[], a, x, c, cs, y, rfl, hx, hc, hname ▸ rfl⟩
  · rw [ha, hb, List.append_assoc, List.append_assoc, append_lt_append_iff] at hpath
    rcases List.cons_lt_cons_iff.mp hpath with hvu | ⟨rfl, -⟩
    · exact absurd hvu (lt_asymm huv)
    · exact absurd huv (lt_irrefl _)

/-- Of two places neither of which is on the way to the other, the first comes before the second in
a walk and after it by their paths exactly when they cross. -/
theorem crosses_iff {x y : Place} (hy : ∀ s ∈ y, '/' ∉ s.toList) (hxy : ¬ x <+: y)
    (hyx : ¬ y <+: x) :
    Crosses x y ↔ comesBefore x y = true ∧ "/".intercalate y < "/".intercalate x := by
  refine ⟨Crosses.orders, ?_⟩
  rintro ⟨hbefore, hpath⟩
  induction x generalizing y with
  | nil => exact absurd List.nil_prefix hxy
  | cons a x ih =>
      cases y with
      | nil => exact absurd List.nil_prefix hyx
      | cons b y =>
          obtain ⟨hb, hslash⟩ := List.forall_mem_cons.mp hy
          rcases comesBefore_cons.mp hbefore with hab | ⟨rfl, hrest⟩
          · exact crosses_of_first_lt hab hb hpath
          · have hxy' : ¬ x <+: y := fun h => hxy (List.cons_prefix_cons.mpr ⟨rfl, h⟩)
            have hyx' : ¬ y <+: x := fun h => hyx (List.cons_prefix_cons.mpr ⟨rfl, h⟩)
            have hx : x ≠ [] := fun h => hxy' (h ▸ List.nil_prefix)
            have hy' : y ≠ [] := fun h => hyx' (h ▸ List.nil_prefix)
            exact .cons (ih hslash hxy' hyx' hrest ((join_cons_lt_iff hx hy').mp hpath))

example : Crosses ["models", "a", "b.yaml"] ["models", "a.yaml"] :=
  ⟨["models"], "a", ["b.yaml"], '.', "yaml".toList, [], rfl, by decide, by decide, rfl⟩

end FileTree
end ClientLoom
