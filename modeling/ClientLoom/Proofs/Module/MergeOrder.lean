import ClientLoom.Module.Merge
import ClientLoom.Proofs.Outcome
import ClientLoom.Proofs.Text.Order

/-! # The order of partial modules

Parts are merged in the order of their origins and fingerprints, whatever order they arrive in.
Where origin and fingerprint differ this settles the order; parts that are `Tied` in both stay in
the order of arrival.  A fingerprint does not show everything that merging keeps, so ties matter
(`merge_swap_attrs`).

Main statement: merging is independent of the order of arrival exactly when tied neighbours can
change places in every sorted arrangement of the parts (`merge_perm_iff_tiesCommute`).  It is so
whenever tied parts are equal (`merge_eq_of_perm`), for instance when no two parts have the same
origin. -/

namespace ClientLoom
namespace Module

/-- Neither the origin nor the fingerprint tells two parts apart. -/
def Tied (a b : Module) : Prop := a.origin = b.origin ∧ a.fingerprint = b.fingerprint

/-- The parts are in the order in which they are merged. -/
def InOrder (parts : List Module) : Prop := parts.Pairwise fun a b => comesBefore a b

instance (parts : List Module) : Decidable (InOrder parts) :=
  inferInstanceAs (Decidable (parts.Pairwise fun a b => comesBefore a b))

/-! ### The order -/

theorem comesBefore_iff {a b : Module} :
    comesBefore a b ↔
      Text.rank a.origin < Text.rank b.origin ∨
        a.origin = b.origin ∧ Text.rank a.fingerprint ≤ Text.rank b.fingerprint := by
  unfold comesBefore
  split
  · next h => simp [h]
  · next h => simp [h, lt_iff_le_and_ne]

theorem comesBefore_trans (a b c : Module) (hab : comesBefore a b) (hbc : comesBefore b c) :
    comesBefore a c := by
  rw [comesBefore_iff] at *
  rcases hab with hab | ⟨hab, hab'⟩
  · rcases hbc with hbc | ⟨hbc, -⟩
    · exact .inl (hab.trans hbc)
    · exact .inl (hbc ▸ hab)
  · rcases hbc with hbc | ⟨hbc, hbc'⟩
    · exact .inl (hab ▸ hbc)
    · exact .inr ⟨hab.trans hbc, hab'.trans hbc'⟩

theorem comesBefore_total (a b : Module) : comesBefore a b || comesBefore b a := by
  rw [Bool.or_eq_true, comesBefore_iff, comesBefore_iff]
  rcases lt_trichotomy (Text.rank a.origin) (Text.rank b.origin) with h | h | h
  · exact .inl (.inl h)
  · have hsame := Text.rank_injective h
    rcases le_total (Text.rank a.fingerprint) (Text.rank b.fingerprint) with h' | h'
    · exact .inl (.inr ⟨hsame, h'⟩)
    · exact .inr (.inr ⟨hsame.symm, h'⟩)
  · exact .inr (.inl h)

theorem Tied.comesBefore {a b : Module} (h : Tied a b) : comesBefore a b :=
  comesBefore_iff.mpr (.inr ⟨h.1, (congrArg Text.rank h.2).le⟩)

theorem Tied.symm {a b : Module} (h : Tied a b) : Tied b a := ⟨h.1.symm, h.2.symm⟩

theorem tied_of_comesBefore {a b : Module} (hab : Module.comesBefore a b)
    (hba : Module.comesBefore b a) : Tied a b := by
  rw [comesBefore_iff] at hab hba
  rcases hab with hab | ⟨ho, hf⟩
  · rcases hba with hba | ⟨ho, -⟩
    · exact absurd hab hba.asymm
    · exact absurd ho.symm (Text.ne_of_rank_lt hab)
  · rcases hba with hba | ⟨-, hf'⟩
    · exact absurd ho.symm (Text.ne_of_rank_lt hba)
    · exact ⟨ho, Text.rank_injective (le_antisymm hf hf')⟩

theorem inOrder_mergeSort (parts : List Module) : InOrder (parts.mergeSort comesBefore) :=
  List.pairwise_mergeSort comesBefore_trans comesBefore_total parts

theorem InOrder.mergeSort_eq {parts : List Module} (h : InOrder parts) :
    parts.mergeSort comesBefore = parts :=
  List.mergeSort_of_pairwise h

/-! ### Merging as assembling a sorted list -/

/-- The origin of the only part, when there is only one. -/
def soleOrigin : List Module → String
  | [part] => part.origin
  | _ => ""

/-- What parts of one name give when they are added in the order of the list. -/
def assemble (name : Ident) (parts : List Module) : Except Failure Module :=
  parts.foldlM addPart { name := name, origin := soleOrigin parts }

theorem soleOrigin_perm {parts qs : List Module} (h : parts.Perm qs) :
    soleOrigin parts = soleOrigin qs := by
  match parts, qs, h with
  | [p], qs, h => rw [List.perm_singleton.mp h.symm]
  | parts, [q], h => rw [List.perm_singleton.mp h]
  | [], [], _ => rfl
  | [], _ :: _ :: _, _ => rfl
  | _ :: _ :: _, [], _ => rfl
  | _ :: _ :: _, _ :: _ :: _, _ => rfl

variable {name : Ident} {parts qs : List Module}

theorem merge_eq_assemble (hne : parts ≠ []) (hname : ∀ p ∈ parts, p.name = name) :
    merge parts = assemble name (parts.mergeSort comesBefore) := by
  unfold merge assemble
  rw [soleOrigin_perm (List.mergeSort_perm parts _)]
  cases parts with
  | nil => exact absurd rfl hne
  | cons first rest =>
      obtain rfl : first.name = name := hname first List.mem_cons_self
      have hfind : rest.find? (fun p => p.name != first.name) = none := by
        rw [List.find?_eq_none]
        intro p hp
        rw [hname p (List.mem_cons_of_mem _ hp)]
        simp
      have horigin : (if rest.isEmpty then first.origin else "") = soleOrigin (first :: rest) := by
        cases rest <;> rfl
      simp only [hfind, horigin]

/-- Parts that are in order are added as they come. -/
theorem merge_of_inOrder (hne : parts ≠ []) (hname : ∀ p ∈ parts, p.name = name)
    (h : InOrder parts) : merge parts = assemble name parts := by
  rw [merge_eq_assemble hne hname, h.mergeSort_eq]

theorem merge_singleton (m : Module) : merge [m] = assemble m.name [m] :=
  merge_of_inOrder (List.cons_ne_nil m []) (by simp) (List.pairwise_singleton _ m)

theorem name_pushAll (m : Module) (ds : List Decl) : (m.pushAll ds).1.name = m.name := by
  induction ds generalizing m with
  | nil => rfl
  | cons d ds ih =>
      have hname : (m.push d).1.name = m.name := rfl
      unfold pushAll
      split
      · next m' hpush =>
          rw [hpush] at hname
          exact (ih m').trans hname
      · next hpush =>
          rw [hpush] at hname
          exact hname

theorem name_of_addPart {m m' part : Module} (h : m.addPart part = .ok m') : m'.name = m.name := by
  have hname := name_pushAll { m with attrs := m.attrs ++ part.attrs } part.decls
  rw [addPart, locate_eq_ok_iff, settled_eq_ok_iff] at h
  rwa [h] at hname

/-- A merged module has the name of its parts. -/
theorem name_of_merge {m : Module} (hname : ∀ p ∈ parts, p.name = name) (h : merge parts = .ok m) :
    m.name = name := by
  rcases eq_or_ne parts [] with rfl | hne
  · cases h
  · rw [merge_eq_assemble hne hname] at h
    exact foldlM_induction (P := fun c => c.name = name)
      (fun _ _ _ _ hc hs => (name_of_addPart hs).trans hc) rfl h

/-- Tied parts that are equal make merging independent of the order of arrival. -/
theorem merge_eq_of_perm (hname : ∀ p ∈ parts, p.name = name) (h : qs.Perm parts)
    (hties : ∀ a ∈ parts, ∀ b ∈ parts, Tied a b → a = b) : merge qs = merge parts := by
  rcases eq_or_ne parts [] with rfl | hne
  · rw [h.eq_nil]
  · have hne' : qs ≠ [] := fun e => hne (by simpa [e] using h.symm)
    have hsorted : qs.mergeSort comesBefore = parts.mergeSort comesBefore := by
      refine List.Perm.eq_of_pairwise ?_ (inOrder_mergeSort qs) (inOrder_mergeSort parts) ?_
      · intro a b ha hb hab hba
        have ha := h.mem_iff.mp ((List.mergeSort_perm qs _).mem_iff.mp ha)
        have hb := (List.mergeSort_perm parts _).mem_iff.mp hb
        exact hties a ha b hb (tied_of_comesBefore hab hba)
      · exact (List.mergeSort_perm qs _).trans (h.trans (List.mergeSort_perm parts _).symm)
    rw [merge_eq_assemble hne' (fun p hp => hname p (h.mem_iff.mp hp)),
      merge_eq_assemble hne hname, hsorted]

/-! ### Ties -/

/-- Tied neighbours can change places, wherever they stand in a sorted arrangement of the parts:
both orders fail or give the same module. -/
def TiesCommute (name : Ident) (parts : List Module) : Prop :=
  ∀ (before : List Module) (a b : Module) (after : List Module),
    (before ++ a :: b :: after).Perm parts → InOrder (before ++ a :: b :: after) → Tied a b →
      (assemble name (before ++ a :: b :: after)).toOption =
        (assemble name (before ++ b :: a :: after)).toOption

theorem InOrder.swap {before after : List Module} {a b : Module}
    (h : InOrder (before ++ a :: b :: after)) (hab : Tied a b) :
    InOrder (before ++ b :: a :: after) := by
  simp only [InOrder, List.pairwise_append, List.pairwise_cons, List.mem_cons,
    forall_eq_or_imp] at h ⊢
  obtain ⟨hbefore, ⟨⟨-, ha⟩, hb, hafter⟩, hacross⟩ := h
  refine ⟨hbefore, ⟨⟨hab.symm.comesBefore, hb⟩, ha, hafter⟩, fun x hx => ?_⟩
  obtain ⟨hxa, hxb, hx⟩ := hacross x hx
  exact ⟨hxb, hxa, hx⟩

/-- A part moves to the front of parts that are tied with it. -/
theorem TiesCommute.moveToFront (h : TiesCommute name parts) {a : Module}
    {ties before after : List Module} (hties : ∀ b ∈ ties, Tied b a)
    (hperm : (before ++ (ties ++ a :: after)).Perm parts)
    (horder : InOrder (before ++ (ties ++ a :: after))) :
    InOrder (before ++ a :: (ties ++ after)) ∧
      (assemble name (before ++ (ties ++ a :: after))).toOption =
        (assemble name (before ++ a :: (ties ++ after))).toOption := by
  induction ties generalizing before with
  | nil => exact ⟨horder, rfl⟩
  | cons b ties ih =>
      -- first past the ties behind `b`, then past `b` itself
      have hb : Tied b a := hties b List.mem_cons_self
      have e (l : List Module) : before ++ b :: l = before ++ [b] ++ l := by simp
      have hmiddle : (a :: (ties ++ after)).Perm (ties ++ a :: after) := List.perm_middle.symm
      have hmove : (before ++ b :: a :: (ties ++ after)).Perm
          (before ++ (b :: ties ++ a :: after)) :=
        (hmiddle.cons b).append_left before
      simp only [List.cons_append] at hperm horder hmove ⊢
      rw [e] at hperm horder
      obtain ⟨horder', houtcome⟩ :=
        ih (fun x hx => hties x (List.mem_cons_of_mem _ hx)) hperm horder
      rw [← e] at hperm horder' houtcome
      rw [← e] at houtcome
      refine ⟨horder'.swap hb, houtcome.trans ?_⟩
      exact h before b a (ties ++ after) (hmove.trans hperm) horder' hb

/-- All sorted arrangements of the parts give the same. -/
theorem TiesCommute.assemble_eq (h : TiesCommute name parts) {before s t : List Module}
    (hst : s.Perm t) (hperm : (before ++ s).Perm parts) (hs : InOrder (before ++ s))
    (ht : InOrder (before ++ t)) :
    (assemble name (before ++ s)).toOption = (assemble name (before ++ t)).toOption := by
  induction t generalizing before s with
  | nil => rw [hst.eq_nil]
  | cons a t ih =>
      obtain ⟨ties, after, rfl⟩ := List.append_of_mem (hst.mem_iff.mpr List.mem_cons_self)
      have hmiddle : (a :: (ties ++ after)).Perm (ties ++ a :: after) := List.perm_middle.symm
      have hrest : (ties ++ after).Perm t := (hmiddle.trans hst).cons_inv
      -- what stands before `a` in one list and behind it in the other is tied with it
      have hties : ∀ b ∈ ties, Tied b a := by
        intro b hb
        have hba := (List.pairwise_append.mp (List.pairwise_append.mp hs).2.1).2.2 b hb a
          List.mem_cons_self
        have hab := (List.pairwise_cons.mp (List.pairwise_append.mp ht).2.1).1 b
          (hrest.mem_iff.mp (List.mem_append_left _ hb))
        exact tied_of_comesBefore hba hab
      obtain ⟨hs', houtcome⟩ := h.moveToFront hties hperm hs
      have e (l : List Module) : before ++ a :: l = before ++ [a] ++ l := by simp
      have hmove : (before ++ a :: (ties ++ after)).Perm (before ++ (ties ++ a :: after)) :=
        hmiddle.append_left before
      rw [houtcome, e, e t]
      exact ih hrest (e _ ▸ hmove.trans hperm) (e _ ▸ hs') (e _ ▸ ht)

/-- For parts of one name, all orders of arrival fail alike or give the same module if and only if
tied neighbours commute.  They do when no two different parts are tied. -/
theorem merge_perm_iff_tiesCommute (hname : ∀ p ∈ parts, p.name = name) :
    ((∀ qs, qs.Perm parts → (merge qs).toOption = (merge parts).toOption) ↔
        TiesCommute name parts) ∧
      ((∀ a ∈ parts, ∀ b ∈ parts, Tied a b → a = b) → TiesCommute name parts) := by
  have hmerge {qs : List Module} (hqs : qs.Perm parts) (hne : qs ≠ []) :
      merge qs = assemble name (qs.mergeSort comesBefore) :=
    merge_eq_assemble hne fun p hp => hname p (hqs.mem_iff.mp hp)
  refine ⟨⟨fun h before a b after hperm horder hab => ?_, fun h qs hqs => ?_⟩, ?_⟩
  · -- a sorted arrangement is the one that merging chooses when it arrives
    have hswap : (before ++ b :: a :: after).Perm parts :=
      ((List.Perm.swap a b after).append_left before).trans hperm
    have h₁ := hmerge hperm (by simp)
    have h₂ := hmerge hswap (by simp)
    rw [horder.mergeSort_eq] at h₁
    rw [(horder.swap hab).mergeSort_eq] at h₂
    rw [← h₁, ← h₂, h _ hperm, h _ hswap]
  · rcases eq_or_ne qs [] with rfl | hne
    · rw [hqs.nil_eq]
    · have hne' : parts ≠ [] := fun e => hne (List.perm_nil.mp (e ▸ hqs))
      rw [hmerge hqs hne, hmerge (.refl _) hne']
      have hsort := List.mergeSort_perm qs comesBefore
      show (assemble name ([] ++ qs.mergeSort comesBefore)).toOption =
        (assemble name ([] ++ parts.mergeSort comesBefore)).toOption
      exact h.assemble_eq (hsort.trans (hqs.trans (List.mergeSort_perm parts _).symm))
        (hsort.trans hqs) (inOrder_mergeSort qs) (inOrder_mergeSort parts)
  · intro hties before a b after hperm _ hab
    have ha : a ∈ parts := hperm.mem_iff.mp (by simp)
    have hb : b ∈ parts := hperm.mem_iff.mp (by simp)
    rw [hties a ha b hb hab]

/-- A part that declares a type without attributes. -/
def plainPart : Module :=
  { name := "pet", origin := "pet.yaml", decls := [.struct { name := "Pet" }] }

/-- A part that declares the same type with an attribute, which its fingerprint does not show. -/
def derivedPart : Module :=
  { name := "pet"
    origin := "pet.yaml"
    decls := [.struct { name := "Pet", attrs := [⟨.of "derive", "(Clone)", false⟩] }] }

/-- A part that its fingerprint tells apart from the other two. -/
def importingPart : Module :=
  { name := "pet", origin := "pet.yaml", decls := [.use { path := .of "std" }] }

theorem merge_perm_iff_tiesCommute_importing :
    (∀ p ∈ [importingPart, derivedPart], p.name = "pet") ∧
      ∀ qs, qs.Perm [importingPart, derivedPart] →
        (merge qs).toOption = (merge [importingPart, derivedPart]).toOption := by
  have hname : ∀ p ∈ [importingPart, derivedPart], p.name = "pet" := by
    simp [importingPart, derivedPart]
  have hprint : importingPart.fingerprint ≠ derivedPart.fingerprint := by decide +kernel
  obtain ⟨hiff, hties⟩ := merge_perm_iff_tiesCommute hname
  refine ⟨hname, hiff.mpr (hties ?_)⟩
  intro a ha b hb hab
  rcases List.mem_pair.mp ha with rfl | rfl <;> rcases List.mem_pair.mp hb with rfl | rfl
  · rfl
  · exact absurd hab.2 hprint
  · exact absurd hab.2.symm hprint
  · rfl

/-- Of two tied parts the first to arrive decides the attributes of the type. -/
theorem merge_swap_attrs :
    [derivedPart, plainPart].Perm [plainPart, derivedPart] ∧
      merge [plainPart, derivedPart] = .ok { name := "pet", decls := plainPart.decls } ∧
      merge [derivedPart, plainPart] = .ok { name := "pet", decls := derivedPart.decls } ∧
      (merge [plainPart, derivedPart]).toOption ≠ (merge [derivedPart, plainPart]).toOption := by
  have htied : Tied plainPart derivedPart := ⟨rfl, by decide +kernel⟩
  have hsort {a b : Module} (h : Tied a b) : [a, b].mergeSort comesBefore = [a, b] :=
    InOrder.mergeSort_eq (List.pairwise_pair.mpr h.comesBefore)
  have hmerge {a b : Module} (h : Tied a b) (ha : a.name = "pet") (hb : b.name = "pet") :
      merge [a, b] = assemble "pet" [a, b] := by
    have hname : ∀ p ∈ [a, b], p.name = "pet" := by simp [ha, hb]
    rw [merge_eq_assemble (by simp) hname, hsort h]
  have h₁ : merge [plainPart, derivedPart] = .ok { name := "pet", decls := plainPart.decls } :=
    (hmerge htied rfl rfl).trans rfl
  have h₂ : merge [derivedPart, plainPart] = .ok { name := "pet", decls := derivedPart.decls } :=
    (hmerge htied.symm rfl rfl).trans rfl
  refine ⟨.swap _ _ _, h₁, h₂, ?_⟩
  rw [h₁, h₂]
  simp [Except.toOption, plainPart, derivedPart]

end Module
end ClientLoom
