import Mathlib.Data.List.Forall2
import ClientLoom.Module.Basic

/-! # Changing the first element

`Module.modifyFirst` changes the first element of a list that has a property.  `FirstChanged`
describes such a change without the search: one element, before which none has the property, is
put in the place of another.  The first struct of a name is found and changed in this way. -/

namespace ClientLoom
namespace Module

variable {α β : Type} {p q : α → Bool} {f : α → α} {xs : List α}

/-- One list comes from another by a change of the first element that has a property; the change
is as `R` says, and all other elements stay as they are. -/
def FirstChanged (P : α → Prop) (R : α → α → Prop) (xs ys : List α) : Prop :=
  ∃ before x y after, xs = before ++ x :: after ∧ (∀ b ∈ before, ¬ P b) ∧ P x ∧ R x y ∧
    ys = before ++ y :: after

theorem modifyFirst_append {before after : List α} {x : α} (hbefore : ∀ y ∈ before, p y = false)
    (hx : p x = true) : modifyFirst p f (before ++ x :: after) = before ++ f x :: after := by
  induction before with
  | nil => simp [modifyFirst, hx]
  | cons y before ih =>
      obtain ⟨hy, hbefore⟩ := List.forall_mem_cons.mp hbefore
      simp [modifyFirst, hy, ih hbefore]

theorem firstChanged_modifyFirst {P : α → Prop} {R : α → α → Prop} {x : α}
    (hp : ∀ y, p y = true ↔ P y) (hx : xs.find? p = some x) (hR : R x (f x)) :
    FirstChanged P R xs (modifyFirst p f xs) := by
  obtain ⟨hpx, before, after, rfl, hbefore⟩ := List.find?_eq_some_iff_append.mp hx
  have hnone : ∀ y ∈ before, p y = false := by simpa using hbefore
  refine ⟨before, x, f x, after, rfl, fun y hy hP => ?_, (hp x).mp hpx, hR,
    modifyFirst_append hnone hpx⟩
  rw [← hp, hnone y hy] at hP
  cases hP

/-- A change that leaves the first element as it is leaves the list as it is. -/
theorem modifyFirst_eq_self {x : α} (hx : xs.find? p = some x) (hf : f x = x) :
    modifyFirst p f xs = xs := by
  obtain ⟨hpx, before, after, rfl, hbefore⟩ := List.find?_eq_some_iff_append.mp hx
  have hnone : ∀ y ∈ before, p y = false := by simpa using hbefore
  rw [modifyFirst_append hnone hpx, hf]

theorem forall₂_modifyFirst {R : α → α → Prop} (hrefl : ∀ x, R x x)
    (hf : ∀ x, p x → R x (f x)) (xs : List α) : List.Forall₂ R xs (modifyFirst p f xs) := by
  induction xs with
  | nil => exact .nil
  | cons x xs ih =>
      unfold modifyFirst
      split
      · next hp => exact .cons (hf x hp) (List.forall₂_same.mpr fun y _ => hrefl y)
      · exact .cons (hrefl x) ih

theorem map_modifyFirst {g : α → β} (h : ∀ x, g (f x) = g x) (xs : List α) :
    (modifyFirst p f xs).map g = xs.map g := by
  induction xs with
  | nil => rfl
  | cons x xs ih =>
      unfold modifyFirst
      split
      · rw [List.map_cons, List.map_cons, h]
      · rw [List.map_cons, List.map_cons, ih]

theorem flatMap_modifyFirst {g : α → List β} (h : ∀ x, p x = true → g (f x) = g x)
    (xs : List α) : (modifyFirst p f xs).flatMap g = xs.flatMap g := by
  induction xs with
  | nil => rfl
  | cons x xs ih =>
      unfold modifyFirst
      split
      · next hx => rw [List.flatMap_cons, List.flatMap_cons, h x hx]
      · rw [List.flatMap_cons, List.flatMap_cons, ih]

theorem find?_modifyFirst (h : ∀ x, p x = true → p (f x) = true) (xs : List α) :
    (modifyFirst p f xs).find? p = (xs.find? p).map f := by
  induction xs with
  | nil => rfl
  | cons x xs ih =>
      unfold modifyFirst
      split
      · next hx => rw [List.find?_cons_of_pos (h x hx), List.find?_cons_of_pos hx, Option.map_some]
      · next hx => rw [List.find?_cons_of_neg hx, List.find?_cons_of_neg hx, ih]

/-- A search for something else does not notice the change. -/
theorem find?_modifyFirst_of_ne (h : ∀ x, p x = true → q x = false ∧ q (f x) = false)
    (xs : List α) : (modifyFirst p f xs).find? q = xs.find? q := by
  induction xs with
  | nil => rfl
  | cons x xs ih =>
      unfold modifyFirst
      split
      · next hx => simp [h x hx]
      · rw [List.find?_cons, List.find?_cons, ih]

/-! ### Changing a struct -/

variable {m : Module} {name : Ident} {s : Struct}

theorem structNamed?_eq_some_iff {d : Decl} :
    structNamed? name d = some s ↔ d = .struct s ∧ s.name = name := by
  cases d with
  | struct t =>
      simp only [structNamed?, beq_iff_eq, Option.ite_none_right_eq_some, Option.some.injEq,
        Decl.struct.injEq]
      exact ⟨fun ⟨hname, hs⟩ => ⟨hs, hs ▸ hname⟩, fun ⟨hs, hname⟩ => ⟨hs ▸ hname, hs⟩⟩
  | _ => simp [structNamed?]

theorem struct?_eq_some_iff : m.struct? name = some s ↔
    ∃ before after, m.decls = before ++ .struct s :: after ∧
      (∀ d ∈ before, structNamed? name d = none) ∧ s.name = name := by
  rw [struct?, List.findSome?_eq_some_iff]
  constructor
  · rintro ⟨before, d, after, hdecls, hd, hbefore⟩
    obtain ⟨rfl, hname⟩ := structNamed?_eq_some_iff.mp hd
    exact ⟨before, after, hdecls, hbefore, hname⟩
  · rintro ⟨before, after, hdecls, hbefore, hname⟩
    exact ⟨before, _, after, hdecls, structNamed?_eq_some_iff.mpr ⟨rfl, hname⟩, hbefore⟩

theorem find?_of_struct? (h : m.struct? name = some s) :
    m.decls.find? (fun d => (structNamed? name d).isSome) = some (.struct s) := by
  obtain ⟨before, after, hdecls, hbefore, hname⟩ := struct?_eq_some_iff.mp h
  refine List.find?_eq_some_iff_append.mpr ⟨?_, before, after, hdecls, fun d hd => ?_⟩
  · rw [structNamed?_eq_some_iff.mpr ⟨rfl, hname⟩]
    rfl
  · rw [hbefore d hd]
    rfl

theorem struct?_modifyStruct {g : Struct → Struct} (h : m.struct? name = some s)
    (hg : (g s).name = s.name) : (m.modifyStruct name g).struct? name = some (g s) := by
  obtain ⟨before, after, hdecls, hbefore, hname⟩ := struct?_eq_some_iff.mp h
  refine struct?_eq_some_iff.mpr ⟨before, after, ?_, hbefore, hg.trans hname⟩
  have hnone : ∀ d ∈ before, (structNamed? name d).isSome = false :=
    fun d hd => by rw [hbefore d hd]; rfl
  have hsome : (structNamed? name (.struct s)).isSome = true := by
    rw [structNamed?_eq_some_iff.mpr ⟨rfl, hname⟩]
    rfl
  rw [modifyStruct, hdecls, modifyFirst_append hnone hsome]

theorem modifyStruct_eq_self {g : Struct → Struct} (h : m.struct? name = some s)
    (hg : g s = s) : m.modifyStruct name g = m := by
  rw [modifyStruct, modifyFirst_eq_self (find?_of_struct? h) (congrArg Decl.struct hg)]

theorem struct?_without {p : Decl → Bool} (h : m.struct? name = some s)
    (hp : p (.struct s) = false) : (m.without p).struct? name = some s := by
  obtain ⟨before, after, hdecls, hbefore, hname⟩ := struct?_eq_some_iff.mp h
  refine struct?_eq_some_iff.mpr ⟨before.filter (!p ·), after.filter (!p ·), ?_,
    fun d hd => hbefore d (List.mem_of_mem_filter hd), hname⟩
  simp [without, hdecls, hp]

theorem without_without (m : Module) (p : Decl → Bool) :
    (m.without p).without p = m.without p := by
  simp only [without, List.filter_filter, Bool.and_self]

end Module
end ClientLoom
