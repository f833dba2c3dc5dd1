import Mathlib.Data.List.Forall2
import ClientLoom.Proofs.Outcome
import ClientLoom.Proofs.Text.Order
import ClientLoom.Registry

/-! # Orderly registries

The entries of an orderly registry stand in strictly increasing order of their names, every module
is filed under its own name, and every name has a group.  Claiming a name keeps a registry orderly
(`Orderly.claim`), and what an orderly registry holds is determined by what can be looked up in it
(`forall₂_of_entryOf?`). -/

namespace ClientLoom
namespace Registry

/-- The modules of an entry have the name of the entry. -/
def Entry.Filed (e : Entry) : Prop := ∀ m ∈ e.merged.toList ++ e.parts, m.name = e.name

/-- The names of entries strictly increase. -/
def Increasing (es : List Entry) : Prop :=
  es.Pairwise fun a b => Text.rank a.name < Text.rank b.name

/-- Entries are in the order of their names, hold modules of their names and have groups. -/
structure Orderly (r : Registry) : Prop where
  increasing : Increasing r.entries
  filed : ∀ e ∈ r.entries, e.Filed
  grouped : ∀ e ∈ r.entries, e.group.isSome

theorem Orderly.empty : Orderly {} := ⟨.nil, fun _ h => (nomatch h), fun _ h => (nomatch h)⟩

/-! ### Finding entries -/

/-- The entry for a name in a list. -/
def entryOf? (es : List Entry) (n : Ident) : Option Entry := es.find? (·.name == n)

theorem lookup_eq (r : Registry) (n : Ident) : r.lookup n = entryOf? r.entries n := rfl

@[simp] theorem entryOf?_nil (n : Ident) : entryOf? [] n = none := rfl

theorem entryOf?_cons (e : Entry) (es : List Entry) (n : Ident) :
    entryOf? (e :: es) n = if e.name = n then some e else entryOf? es n := by
  unfold entryOf?
  rw [List.find?_cons]
  by_cases h : e.name = n
  · simp [h]
  · have hne : (e.name == n) = false := by simpa using h
    simp [h, hne]

theorem entryOf?_eq_none_iff {es : List Entry} {n : Ident} :
    entryOf? es n = none ↔ ∀ e ∈ es, e.name ≠ n := by
  simp [entryOf?, List.find?_eq_none]

theorem entryOf?_eq_none_of_lt {es : List Entry} {n : Ident}
    (h : ∀ e ∈ es, Text.rank n < Text.rank e.name) : entryOf? es n = none :=
  entryOf?_eq_none_iff.mpr fun e he => (Text.ne_of_rank_lt (h e he)).symm

theorem name_of_entryOf? {es : List Entry} {n : Ident} {e : Entry} (h : entryOf? es n = some e) :
    e.name = n := by
  simpa using List.find?_some h

theorem mem_of_entryOf? {es : List Entry} {n : Ident} {e : Entry} (h : entryOf? es n = some e) :
    e ∈ es :=
  List.mem_of_find?_eq_some h

theorem name_le_of_isSome {e : Entry} {es : List Entry} (hes : Increasing (e :: es)) {n : Ident}
    (h : (entryOf? (e :: es) n).isSome) : Text.rank e.name ≤ Text.rank n := by
  obtain ⟨x, hx⟩ := Option.isSome_iff_exists.mp h
  rw [← name_of_entryOf? hx]
  rcases List.mem_cons.mp (mem_of_entryOf? hx) with rfl | hmem
  · exact le_rfl
  · exact ((List.pairwise_cons.mp hes).1 x hmem).le

theorem isSome_eq_of_rel {R : Entry → Entry → Prop} {a b : Option Entry} (h : Option.Rel R a b) :
    a.isSome = b.isSome := by
  cases h <;> rfl

/-- Lists of entries in the order of their names are related entry by entry when what is found
under each name is. -/
theorem forall₂_of_entryOf? {R : Entry → Entry → Prop} {es es' : List Entry}
    (hes : Increasing es) (hes' : Increasing es')
    (h : ∀ n, Option.Rel R (entryOf? es n) (entryOf? es' n)) : List.Forall₂ R es es' := by
  induction es generalizing es' with
  | nil =>
      cases es' with
      | nil => exact .nil
      | cons y ys =>
          have hy := h y.name
          rw [entryOf?_nil, entryOf?_cons, if_pos rfl] at hy
          cases hy
  | cons x xs ih =>
      obtain ⟨hx, hxs⟩ := List.pairwise_cons.mp hes
      cases es' with
      | nil =>
          have hn := h x.name
          rw [entryOf?_nil, entryOf?_cons, if_pos rfl] at hn
          cases hn
      | cons y ys =>
          obtain ⟨hy, hys⟩ := List.pairwise_cons.mp hes'
          -- the name of each head is found on the other side too
          have hname : x.name = y.name := by
            have hx' := isSome_eq_of_rel (h x.name)
            have hy' := isSome_eq_of_rel (h y.name)
            rw [entryOf?_cons x, if_pos rfl] at hx'
            rw [entryOf?_cons y, if_pos rfl] at hy'
            exact Text.rank_injective
              (le_antisymm (name_le_of_isSome hes hy') (name_le_of_isSome hes' hx'.symm))
          have hhead : R x y := by
            have hn := h x.name
            rw [entryOf?_cons, if_pos rfl, entryOf?_cons, if_pos hname.symm] at hn
            cases hn with
            | some hxy => exact hxy
          refine .cons hhead (ih hxs hys fun n => ?_)
          have hn := h n
          rw [entryOf?_cons, entryOf?_cons, ← hname] at hn
          by_cases hxn : x.name = n
          · have hnone : entryOf? xs n = none := entryOf?_eq_none_of_lt fun e he => hxn ▸ hx e he
            have hnone' : entryOf? ys n = none :=
              entryOf?_eq_none_of_lt fun e he => hxn ▸ hname ▸ hy e he
            rw [hnone, hnone']
            exact .none
          · rwa [if_neg hxn, if_neg hxn] at hn

/-! ### Changing an entry -/

section upsert
variable {e : Entry} {f : Entry → Entry} {es : List Entry}

theorem mem_upsert {x : Entry} (h : x ∈ upsert e f es) :
    x ∈ es ∨ x = f e ∨ ∃ y ∈ es, y.name = e.name ∧ x = f y := by
  induction es with
  | nil => exact .inr (.inl (List.mem_singleton.mp h))
  | cons y ys ih =>
      unfold upsert at h
      split at h
      · next hy =>
          rcases List.mem_cons.mp h with rfl | h
          · exact .inr (.inr ⟨y, List.mem_cons_self, hy, rfl⟩)
          · exact .inl (List.mem_cons_of_mem _ h)
      · split at h
        · rcases List.mem_cons.mp h with rfl | h
          · exact .inr (.inl rfl)
          · exact .inl h
        · rcases List.mem_cons.mp h with rfl | h
          · exact .inl List.mem_cons_self
          · rcases ih h with h | h | ⟨z, hz, hname, rfl⟩
            · exact .inl (List.mem_cons_of_mem _ h)
            · exact .inr (.inl h)
            · exact .inr (.inr ⟨z, List.mem_cons_of_mem _ hz, hname, rfl⟩)

variable (hf : ∀ x, (f x).name = x.name)
include hf

theorem name_of_mem_upsert {x : Entry} (h : x ∈ upsert e f es) :
    x.name = e.name ∨ x ∈ es := by
  rcases mem_upsert h with h | rfl | ⟨y, -, hy, rfl⟩
  · exact .inr h
  · exact .inl (hf e)
  · exact .inl ((hf y).trans hy)

theorem increasing_upsert (hes : Increasing es) : Increasing (upsert e f es) := by
  induction es with
  | nil => exact List.pairwise_singleton _ _
  | cons y ys ih =>
      obtain ⟨hy, hys⟩ := List.pairwise_cons.mp hes
      unfold upsert
      split
      · exact .cons (fun z hz => by rw [hf]; exact hy z hz) hys
      · next hne =>
          split
          · next hlt =>
              refine .cons (fun z hz => ?_) hes
              rw [hf]
              rcases List.mem_cons.mp hz with rfl | hz
              · exact hlt
              · exact hlt.trans (hy z hz)
          · next hnlt =>
              have hlt : Text.rank y.name < Text.rank e.name :=
                Text.rank_lt_of_le_of_ne (not_lt.mp hnlt) hne
              refine .cons (fun z hz => ?_) (ih hys)
              rcases name_of_mem_upsert hf hz with hz | hz
              · rw [hz]
                exact hlt
              · exact hy z hz

/-- What is found after a change: the changed entry under its name, and otherwise what was found
before. -/
theorem entryOf?_upsert (hes : Increasing es) (n : Ident) :
    entryOf? (upsert e f es) n =
      if e.name = n then some (f ((entryOf? es n).getD e)) else entryOf? es n := by
  induction es with
  | nil =>
      simp only [upsert, entryOf?_cons, entryOf?_nil, hf, Option.getD_none]
  | cons y ys ih =>
      obtain ⟨hy, hys⟩ := List.pairwise_cons.mp hes
      unfold upsert
      split
      · next hname =>
          rw [entryOf?_cons, entryOf?_cons, hf, hname]
          by_cases hn : e.name = n
          · simp [hn]
          · simp [hn]
      · next hne =>
          split
          · next hlt =>
              rw [entryOf?_cons, hf]
              by_cases hn : e.name = n
              · have hnone : entryOf? (y :: ys) n = none := by
                  refine entryOf?_eq_none_of_lt fun z hz => ?_
                  rcases List.mem_cons.mp hz with rfl | hz
                  · exact hn ▸ hlt
                  · exact hn ▸ hlt.trans (hy z hz)
                rw [if_pos hn, if_pos hn, hnone, Option.getD_none]
              · rw [if_neg hn, if_neg hn]
          · rw [entryOf?_cons, entryOf?_cons, ih hys]
            by_cases hn : y.name = n
            · have hen : e.name ≠ n := fun h => hne (hn.trans h.symm)
              simp [hn, hen]
            · simp [hn]

end upsert

/-! ### Claiming a name -/

section claim
variable {r r' : Registry} {group : String} {name : Ident} {refusal : String → Failure}
  {f : Entry → Entry}

theorem rival?_eq_none_iff :
    r.rival? group name = none ↔ ∀ g, r.tag? name = some g → g = group := by
  simp [rival?, Option.filter_eq_none_iff]

/-- A name is given to a group, or another group has it; then the registry stays as it is. -/
theorem claim_cases (r : Registry) (group : String) (name : Ident) (refusal : String → Failure)
    (f : Entry → Entry) :
    (r.rival? group name = none ∧
      r.claim group name refusal f =
        (⟨upsert { name := name } (fun e => f { e with group := some group }) r.entries⟩,
          .ok ())) ∨
    ∃ other, r.rival? group name = some other ∧
      r.claim group name refusal f = (r, .error (refusal other)) := by
  unfold claim
  cases r.rival? group name with
  | none => exact .inl ⟨rfl, rfl⟩
  | some other => exact .inr ⟨other, rfl, rfl⟩

theorem exists_claim_iff :
    (∃ r', r.claim group name refusal f = (r', .ok ())) ↔ r.rival? group name = none := by
  obtain ⟨hnone, hclaim⟩ | ⟨other, hsome, hclaim⟩ := claim_cases r group name refusal f
  · exact iff_of_true ⟨_, hclaim⟩ hnone
  · rw [hclaim, hsome]
    exact iff_of_false (fun ⟨_, h⟩ => (nomatch (Prod.mk.inj h).2)) (Option.some_ne_none other)

theorem lookup_claim (hr : Increasing r.entries) (hf : ∀ e, (f e).name = e.name)
    (h : r.claim group name refusal f = (r', .ok ())) (n : Ident) :
    r'.lookup n =
      if name = n then some (f { (r.lookup n).getD { name := name } with group := some group })
      else r.lookup n := by
  obtain ⟨-, hclaim⟩ | ⟨other, -, hclaim⟩ := claim_cases r group name refusal f
  · obtain ⟨rfl, -⟩ := Prod.mk.inj (hclaim.symm.trans h)
    exact entryOf?_upsert (fun e => hf { e with group := some group }) hr n
  · cases (Prod.mk.inj (hclaim.symm.trans h)).2

/-- Claiming a name keeps a registry orderly, whether it is refused or not, when the change files
modules of the name. -/
theorem Orderly.claim (hr : r.Orderly) (refusal : String → Failure)
    (hname : ∀ e, (f e).name = e.name) (hgroup : ∀ e, (f e).group = e.group)
    (hfiled : ∀ e : Entry, e.Filed → e.name = name → (f e).Filed) :
    (r.claim group name refusal f).1.Orderly := by
  obtain ⟨-, hclaim⟩ | ⟨other, -, hclaim⟩ := claim_cases r group name refusal f
  · rw [hclaim]
    refine ⟨increasing_upsert (fun e => hname { e with group := some group }) hr.increasing,
      fun e he => ?_, fun e he => ?_⟩
    · rcases mem_upsert he with he | rfl | ⟨x, hx, hxn, rfl⟩
      · exact hr.filed e he
      · exact hfiled { name := name, group := some group } (fun _ hp => (nomatch hp)) rfl
      · exact hfiled { x with group := some group } (hr.filed x hx) hxn
    · rcases mem_upsert he with he | rfl | ⟨x, -, -, rfl⟩
      · exact hr.grouped e he
      · exact congrArg Option.isSome (hgroup _)
      · exact congrArg Option.isSome (hgroup _)
  · rwa [hclaim]

end claim

/-! ### Recording parts -/

variable {r r' : Registry} {group : String} {m : Module}

/-- A part is recorded unless another group claims its name. -/
theorem exists_add_iff : (∃ r', r.add group m = (r', .ok ())) ↔ r.rival? group m.name = none :=
  exists_claim_iff

theorem lookup_add (hr : Increasing r.entries) (h : r.add group m = (r', .ok ())) (n : Ident) :
    r'.lookup n =
      if m.name = n then
        let e := (r.lookup n).getD { name := m.name }
        some { e with group := some group, parts := e.parts ++ [m] }
      else r.lookup n :=
  lookup_claim (f := fun e => { e with parts := e.parts ++ [m] }) hr (fun _ => rfl) h n

/-- Recording a part keeps a registry orderly, whether it is refused or not. -/
theorem Orderly.add (hr : r.Orderly) (group : String) (m : Module) :
    (r.add group m).1.Orderly := by
  refine hr.claim _ (fun _ => rfl) (fun _ => rfl) fun e he hname p hp => ?_
  simp only [← List.append_assoc, List.mem_append, List.mem_singleton] at hp
  rcases hp with hp | rfl
  · exact he p (List.mem_append.mpr hp)
  · exact hname.symm

end Registry
end ClientLoom
