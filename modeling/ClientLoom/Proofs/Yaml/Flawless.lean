import ClientLoom.Proofs.Outcome
import ClientLoom.Yaml.Fit

/-! # Work without a flaw

A flaw in a document is noted and the work goes on, so what is known of work that ends well has to
be carried along.  `Fit.Ensures A x C` says that no flaw is forgotten in `x`, and that without one
`x` leads from keys that count as present in `A` to a value and keys in `C`.  It follows the
combinators of the work (`Ensures.bind`, `ensures_visit`, `ensures_mapM`), of which the keys that
merges gather (`ensures_any`) need the most care: a key that is a collection may change them, and is
refused later. -/

namespace ClientLoom.Yaml

variable {α β : Type}

/-! ### What nodes say -/

/-- What a node says as a text: nothing, or that text. -/
def Node.says? : Node → Option (Option String)
  | .scalar _ tag style text =>
      match meaning? tag style text with
      | none => none
      | some .null => some none
      | some _ => (content? tag text).map some
  | _ => none

/-- The items of a sequence. -/
def Node.items : Node → List Node
  | .sequence _ _ items => items
  | _ => []

/-- What a scalar is as a key. -/
def Node.key? : Node → Option Key
  | .scalar line tag style text =>
      match meaning? tag style text, (Node.scalar line tag style text).says? with
      | _, some none => some .null
      | some .text, some (some s) => some (.text s)
      | some m, some (some _) => some (.scalar m.tag text)
      | _, _ => none
  | _ => none

namespace Document

variable (d : Document)

/-- What a node says as a text, where an alias speaks for the node it stands for. -/
def text? (n : Node) : Option (Option String) := (d.resolve n).says?

end Document

namespace Fit

/-! ### Work without a flaw -/

/-- Work that ends without a flaw had none before, and led from keys in `A` to a value and keys in
`C`. -/
def Ensures (A : Option (List Key) → Prop) (x : Fit α) (C : α → Option (List Key) → Prop) : Prop :=
  ∀ t a t', x t = .ok (a, t') → t'.flawed = false →
    t.flawed = false ∧ (A t.merged → C a t'.merged)

/-- Work that ends without a flaw had none before. -/
abbrev Sticky (x : Fit α) : Prop := Ensures (fun _ => True) x fun _ _ => True

/-- Outside of merges, the work may give `a` without a flaw. -/
def Clean (x : Fit α) (a : α) : Prop :=
  ∃ t t', x t = .ok (a, t') ∧ t'.flawed = false ∧ t.merged = none

/-- Work that begins outside of merges ends there. -/
abbrev Steady (x : Fit α) : Prop := Ensures (· = none) x fun _ m => m = none

variable {A : Option (List Key) → Prop} {B : β → Option (List Key) → Prop}
  {C : α → Option (List Key) → Prop}

theorem ensures_pure {a : α} (h : ∀ m, A m → C a m) : Ensures A (pure a) C := by
  intro t b t' hrun hflawed
  obtain ⟨rfl, rfl⟩ := Prod.mk.inj (Except.ok.inj hrun)
  exact ⟨hflawed, h _⟩

theorem ensures_refuse : Ensures A refuse C := fun _ _ _ h => nomatch h

theorem ensures_throw (e : Stop) : Ensures A (throw e) C := fun _ _ _ h => nomatch h

theorem Ensures.bind {x : Fit α} {f : α → Fit β} (hx : Ensures A x C)
    (hf : ∀ a, Ensures (C a) (f a) B) : Ensures A (x >>= f) B := by
  intro t b t' hrun hflawed
  have hboth : (x t >>= fun p => f p.1 p.2) = .ok (b, t') := hrun
  obtain ⟨⟨a, t''⟩, ha, hfa⟩ := bind_eq_ok_iff.mp hboth
  obtain ⟨hmiddle, hB⟩ := hf a t'' b t' hfa hflawed
  obtain ⟨hstart, hC⟩ := hx t a t'' ha hmiddle
  exact ⟨hstart, fun hA => hB (hC hA)⟩

theorem Ensures.mono {x : Fit α} {A' : Option (List Key) → Prop}
    {C' : α → Option (List Key) → Prop} (h : Ensures A x C) (hA : ∀ m, A' m → A m)
    (hC : ∀ a m, C a m → C' a m) : Ensures A' x C' := by
  intro t a t' hrun hflawed
  obtain ⟨hstart, hAC⟩ := h t a t' hrun hflawed
  exact ⟨hstart, fun hA' => hC _ _ (hAC (hA _ hA'))⟩

theorem Ensures.sticky {x : Fit α} (h : Ensures A x C) : Sticky x :=
  fun t a t' hrun hflawed => ⟨(h t a t' hrun hflawed).1, fun _ => trivial⟩

/-- What comes of the work before does not matter. -/
theorem Sticky.after {x : Fit α} {f : α → Fit β} (hx : Sticky x)
    (hf : ∀ a, Ensures (fun _ => True) (f a) B) : Ensures A (x >>= f) B :=
  (hx.mono (fun _ _ => trivial) fun _ _ h => h).bind hf

/-- What was known before is known after. -/
theorem Ensures.frame {x : Fit α} (P : Prop) (h : Ensures A x C) :
    Ensures (fun m => P ∧ A m) x fun a m => P ∧ C a m := by
  intro t a t' hrun hflawed
  obtain ⟨hstart, hAC⟩ := h t a t' hrun hflawed
  exact ⟨hstart, fun hA => ⟨hA.1, hAC hA.2⟩⟩

theorem Ensures.of_exists {ι : Type} [Inhabited ι] {x : Fit α} {A : ι → Option (List Key) → Prop}
    (h : ∀ i, Ensures (A i) x C) : Ensures (fun m => ∃ i, A i m) x C := by
  intro t a t' hrun hflawed
  refine ⟨(h default t a t' hrun hflawed).1, ?_⟩
  rintro ⟨i, hi⟩
  exact (h i t a t' hrun hflawed).2 hi

/-- Work that notes a flaw may be left out of account. -/
theorem Ensures.elim {x : Fit α} (h : Ensures A x fun _ _ => False) : Ensures A x C :=
  h.mono (fun _ hm => hm) fun _ _ hm => hm.elim

theorem ensures_noteFlaw : Ensures A noteFlaw fun _ _ => False := by
  intro t a t' hrun hflawed
  obtain ⟨-, rfl⟩ := Prod.mk.inj (Except.ok.inj hrun)
  cases hflawed

theorem ensures_flaw : Ensures A (flaw : Fit (Option α)) fun _ _ => False :=
  ensures_noteFlaw.bind fun _ => ensures_pure fun _ h => h

theorem ensures_get : Ensures A get fun t m => t.merged = m ∧ A m := by
  intro t a t' hrun hflawed
  obtain ⟨rfl, rfl⟩ := Prod.mk.inj (Except.ok.inj hrun)
  exact ⟨hflawed, fun hA => ⟨rfl, hA⟩⟩

theorem ensures_modify {f : Tally → Tally} {C : Unit → Option (List Key) → Prop}
    (hflaw : ∀ t, (f t).flawed = t.flawed) (h : ∀ t, A t.merged → C () (f t).merged) :
    Ensures A (modify f) C := by
  intro t a t' hrun hflawed
  obtain ⟨-, rfl⟩ := Prod.mk.inj (Except.ok.inj hrun)
  exact ⟨(hflaw t).symm.trans hflawed, h t⟩

theorem ensures_count : Ensures A count fun _ m => A m := by
  intro t a t' hrun hflawed
  unfold count at hrun
  extract_lets t₁ at hrun
  split at hrun
  · obtain ⟨-, rfl⟩ := Prod.mk.inj (Except.ok.inj hrun)
    exact ⟨hflawed, fun hA => hA⟩
  · cases hrun

theorem Ensures.of_clean {x : Fit α} (h : Ensures (· = none) x C) {a : α} (ha : Clean x a) :
    ∃ m, C a m := by
  obtain ⟨t, t', hrun, hflawed, hmerged⟩ := ha
  exact ⟨_, (h t a t' hrun hflawed).2 hmerged⟩

theorem clean_map {x : Fit α} {f : α → β} {b : β} (h : Clean (x >>= fun a => pure (f a)) b) :
    ∃ a, Clean x a ∧ b = f a := by
  obtain ⟨t, t', hrun, hflawed, hmerged⟩ := h
  have hboth : (x t >>= fun p => (pure (f p.1) : Fit β) p.2) = .ok (b, t') := hrun
  obtain ⟨⟨a, t''⟩, ha, hfa⟩ := bind_eq_ok_iff.mp hboth
  obtain ⟨rfl, rfl⟩ := Prod.mk.inj (Except.ok.inj hfa)
  exact ⟨a, ⟨t, t'', ha, hflawed, hmerged⟩, rfl⟩

/-- What comes of work without a flaw. -/
theorem Ensures.clean {x : Fit α} (h : Ensures (· = none) x C) :
    Ensures (· = none) x fun a m => Clean x a ∧ C a m := by
  intro t a t' hrun hflawed
  obtain ⟨hstart, hC⟩ := h t a t' hrun hflawed
  exact ⟨hstart, fun hmerged => ⟨⟨t, t', hrun, hflawed, hmerged⟩, hC hmerged⟩⟩

theorem ensures_mapM {f : α → Fit β} {xs : List α} (hf : ∀ x ∈ xs, Steady (f x)) :
    Ensures (· = none) (xs.mapM f) fun ys m =>
      List.Forall₂ (fun x y => Clean (f x) y) xs ys ∧ m = none := by
  induction xs with
  | nil => exact ensures_pure fun _ h => ⟨.nil, h⟩
  | cons x xs ih =>
      rw [List.mapM_cons]
      refine (hf x List.mem_cons_self).clean.bind fun y => ?_
      refine ((ih fun z hz => hf z (List.mem_cons_of_mem _ hz)).frame _).bind fun ys => ?_
      exact ensures_pure fun _ h => ⟨.cons h.1 h.2.1, h.2.2⟩

/-! ### Nodes -/

theorem ensures_visit {d : Document} {n : Node} {use : Node → Fit α}
    (huse : Ensures A (use (d.resolve n)) C) : Ensures A (visit d n use) C := by
  refine ensures_count.bind fun _ => ?_
  match n with
  | .alias line name target =>
      cases htarget : d.anchors[target]? with
      | none => simpa only [htarget] using ensures_refuse
      | some m =>
          have hm : d.resolve (.alias line name target) = m := by simp [Document.resolve, htarget]
          rw [hm] at huse
          simp only [htarget]
          refine ensures_get.bind fun t => ?_
          split
          · exact ensures_refuse
          · have hpush : Ensures (fun k => t.merged = k ∧ A k)
                (modify fun t => { t with around := target :: t.around }) fun _ k => A k :=
              ensures_modify (fun _ => rfl) fun _ h => h.2
            refine hpush.bind fun _ => ensures_count.bind fun _ => huse.bind fun a => ?_
            have hpop : Ensures (C a)
                (modify fun t => { t with around := t.around.tail }) fun _ k => C a k :=
              ensures_modify (fun _ => rfl) fun _ h => h
            exact hpop.bind fun _ => ensures_pure fun _ h => h
  | .scalar _ _ _ _ => exact huse
  | .sequence _ _ _ => exact huse
  | .mapping _ _ _ => exact huse

theorem ensures_scalarText (line : Nat) (tag : String) (style : Style) (text : String) :
    Ensures A (scalarText tag style text) fun r m =>
      (Node.scalar line tag style text).says? = some r ∧ A m := by
  unfold scalarText
  split
  · exact ensures_refuse
  · next hmeaning => exact ensures_pure fun _ h => ⟨by simp only [Node.says?, hmeaning], h⟩
  · next m hnull hmeaning =>
    split
    · next s hs =>
      refine ensures_pure fun _ h => ⟨?_, h⟩
      simp only [Node.says?, hmeaning]
      cases m <;> first | exact absurd rfl hnull | simp [hs]
    · exact ensures_refuse

theorem ensures_nothing (tag : String) (style : Style) (text : String) :
    Ensures A (nothing tag style text : Fit (Option α)) fun r m => r = none ∧ A m := by
  refine (ensures_scalarText 0 tag style text).bind fun s => ?_
  cases s with
  | none => exact ensures_pure fun _ h => ⟨rfl, h.2⟩
  | some s => exact ensures_flaw.elim

theorem ensures_text (d : Document) (n : Node) :
    Ensures A (text d n) fun r m => d.text? n = some r ∧ A m := by
  refine ensures_visit ?_
  unfold Document.text?
  cases d.resolve n with
  | scalar line tag style text => exact ensures_scalarText line tag style text
  | _ => exact ensures_flaw.elim

theorem ensures_items {d : Document} {n : Node} {item : Node → Fit (Option α)}
    (hitem : ∀ m, Steady (item m)) :
    Ensures (· = none) (items d item n) fun r m =>
      (r = none ∧ (d.resolve n).items = [] ∨ ∃ xs, r = some (xs.filterMap id) ∧
        List.Forall₂ (fun m x => Clean (item m) x) ((d.resolve n).items) xs) ∧ m = none := by
  refine ensures_visit ?_
  cases d.resolve n with
  | sequence line tag ms =>
      refine (ensures_mapM fun m _ => hitem m).bind fun xs => ?_
      exact ensures_pure fun _ h => ⟨.inr ⟨xs, rfl, h.1⟩, h.2⟩
  | scalar line tag style text =>
      exact (ensures_nothing tag style text).mono (fun _ h => h) fun _ _ h => ⟨.inl ⟨h.1, rfl⟩, h.2⟩
  | _ => exact ensures_flaw.elim

/-! ### Keys -/

theorem ensures_scalarKey (line : Nat) (tag : String) (style : Style) (text : String) :
    Ensures A (scalarKey tag style text) fun k m =>
      (∃ k', k = some k' ∧ (Node.scalar line tag style text).key? = some k') ∧ A m := by
  refine (ensures_scalarText line tag style text).bind fun r => ?_
  cases r with
  | none => exact ensures_pure fun _ h => ⟨⟨_, rfl, by simp only [Node.key?, h.1]⟩, h.2⟩
  | some s =>
      cases hmeaning : Node.meaning? tag style text with
      | none => exact ensures_refuse
      | some m =>
          cases m <;>
            exact ensures_pure fun _ h =>
              ⟨⟨_, rfl, by simp only [Node.key?, h.1, hmeaning]⟩, h.2⟩

theorem sticky_pure (a : α) : Sticky (pure a) := ensures_pure fun _ h => h

theorem sticky_get : Sticky get := fun _ _ _ hrun hflawed => by
  obtain ⟨rfl, rfl⟩ := Prod.mk.inj (Except.ok.inj hrun)
  exact ⟨hflawed, fun _ => trivial⟩

theorem sticky_modify {f : Tally → Tally}
    (hflaw : ∀ t, (f t).flawed = t.flawed := by intro t; rfl) : Sticky (modify f) :=
  ensures_modify hflaw fun _ h => h

theorem sticky_mapM {f : α → Fit β} (hf : ∀ x, Sticky (f x)) (xs : List α) :
    Sticky (xs.mapM f) := by
  induction xs with
  | nil => exact sticky_pure _
  | cons x xs ih =>
      rw [List.mapM_cons]
      exact (hf x).after fun y => ih.after fun ys => sticky_pure _

theorem sticky_foldlM {f : β → α → Fit β} (hf : ∀ b x, Sticky (f b x)) (xs : List α) (b : β) :
    Sticky (xs.foldlM f b) := by
  induction xs generalizing b with
  | nil => exact sticky_pure _
  | cons x xs ih =>
      rw [List.foldlM_cons]
      exact (hf b x).after ih

theorem sticky_forM {f : α → Fit PUnit} (hf : ∀ x, Sticky (f x)) (xs : List α) :
    Sticky (xs.forM f) := by
  induction xs with
  | nil => exact sticky_pure _
  | cons x xs ih =>
      exact (hf x).after fun _ => ih

section collections

variable {d : Document} {key : Node → Fit (Option Key)}

theorem sticky_useEntries {use : α → Key → Node → Fit α} (hkey : ∀ n, Sticky (key n))
    (huse : ∀ a k v, Sticky (use a k v)) (a : α) (es : List (Node × Node)) :
    Sticky (useEntries key use a es) := by
  have hone : ∀ s e, Sticky (useEntry key use s e) := by
    intro s e
    unfold useEntry
    split
    · exact sticky_pure _
    · refine (hkey e.1).after fun k => ?_
      split
      · exact sticky_pure _
      · exact (huse _ _ _).after fun _ => sticky_pure _
      · split
        · exact ensures_throw _
        · split
          · exact sticky_pure _
          · exact (huse _ _ _).after fun _ => sticky_pure _
  refine sticky_get.after fun t => (sticky_modify).after fun _ => ?_
  refine (sticky_foldlM hone es _).after fun p => ?_
  exact (sticky_modify).after fun _ => sticky_pure _

theorem sticky_note (k : Key) : Sticky (note k) := by
  unfold note
  split
  · exact ensures_throw _
  · exact sticky_modify

theorem sticky_noteKeys (hkey : ∀ n, Sticky (key n)) (es : List (Node × Node)) :
    Sticky (noteKeys key es) := by
  refine sticky_get.after fun t => ?_
  split
  · refine (sticky_modify).after fun _ => sticky_forM (fun e => ?_) es
    refine (hkey e.1).after fun k => ?_
    cases k with
    | none => exact sticky_pure _
    | some k => exact sticky_note k
  · exact sticky_pure _

theorem sticky_mergeOne {into : α → Node → Fit α} (hinto : ∀ a n, Sticky (into a n)) (a : α)
    (n : Node) : Sticky (mergeOne d into a n) := by
  unfold mergeOne
  split
  · exact hinto a n
  · exact ensures_refuse

theorem sticky_merge {into : α → Node → Fit α} (hkey : ∀ n, Sticky (key n))
    (hinto : ∀ a n, Sticky (into a n)) (a : α) (es : List (Node × Node)) :
    Sticky (merge d key into a es) := by
  unfold merge
  split
  · exact sticky_pure _
  · refine sticky_get.after fun t => (sticky_noteKeys hkey es).after fun _ => ?_
    refine (sticky_foldlM (sticky_mergeOne hinto) _ a).after fun b => ?_
    split
    · exact (sticky_modify).after fun _ => sticky_pure _
    · exact sticky_pure _

/-- A merge that begins outside of merges ends there, for it forgets the keys that it noted. -/
theorem steady_merge {into : α → Node → Fit α} (hkey : ∀ n, Sticky (key n))
    (hinto : ∀ a n, Sticky (into a n)) (a : α) (es : List (Node × Node)) :
    Steady (merge d key into a es) := by
  unfold merge
  split
  · exact ensures_pure fun _ hm => hm
  · refine ensures_get.bind fun t => ?_
    have hnote := (sticky_noteKeys hkey es).frame (t.merged = none)
    refine (hnote.mono (fun _ hm => ⟨hm.1.trans hm.2, trivial⟩) fun _ _ hm => hm).bind fun _ => ?_
    refine ((sticky_foldlM (sticky_mergeOne hinto) _ a).frame (t.merged = none)).bind fun b => ?_
    split
    · have hend : Ensures (fun _ => t.merged = none ∧ True)
          (modify fun t => { t with merged := none }) fun _ m => m = none :=
        ensures_modify (fun _ => rfl) fun _ _ => rfl
      exact hend.bind fun _ => ensures_pure fun _ hm => hm
    · next hsome => exact ensures_pure fun _ hm => absurd hm.1 (by simpa using hsome)

theorem ensures_anyTable {value : Node → Fit (Option Key)} (hvalue : ∀ n, Sticky (value n))
    (textual : Bool) (fuel : Nat) (es : List (Node × Node)) :
    Ensures (fun _ => True) (anyTable d value textual fuel es) fun k _ =>
      k = some (.table textual) := by
  induction fuel generalizing es with
  | zero => exact ensures_refuse
  | succ fuel ih =>
      unfold anyTable
      split
      · exact ensures_flaw.elim
      · refine (sticky_useEntries (fun n => ?_) (fun _ k v => ?_) () es).after fun _ => ?_
        · split
          · exact (ensures_text (A := fun _ => True) d n).sticky.after fun _ => sticky_pure _
          · exact hvalue n
        · split
          · exact ensures_refuse
          · exact (hvalue v).after fun _ => sticky_pure _
        · refine (sticky_merge hvalue (fun _ n => ensures_visit ?_) () es).after fun _ =>
            ensures_pure fun _ _ => rfl
          split
          · exact (ih _).sticky.after fun _ => sticky_pure _
          · exact ensures_refuse

theorem sticky_any (fuel : Nat) (n : Node) : Sticky (any d fuel n) := by
  induction fuel generalizing n with
  | zero => exact ensures_refuse
  | succ fuel ih =>
      refine ensures_visit ?_
      split
      · exact (ensures_scalarKey (A := fun _ => True) 0 _ _ _).sticky
      · exact (sticky_mapM ih _).after fun _ => sticky_pure _
      · exact (ensures_anyTable ih _ _ _).sticky
      · exact ensures_refuse

end collections

/-- As a key, a node is a collection, or nothing is changed by reading it. -/
theorem ensures_any (d : Document) (fuel : Nat) (n : Node) :
    Ensures A (any d fuel n) fun k m =>
      ∃ k', k = some k' ∧ (k'.isCollection = true ∨ (d.resolve n).key? = some k' ∧ A m) := by
  cases fuel with
  | zero => exact ensures_refuse
  | succ fuel =>
      refine ensures_visit ?_
      cases d.resolve n with
      | scalar line tag style text =>
          refine (ensures_scalarKey line tag style text).mono (fun _ h => h) ?_
          rintro k m ⟨⟨k', rfl, hk'⟩, hm⟩
          exact ⟨k', rfl, .inr ⟨hk', hm⟩⟩
      | sequence line tag items =>
          refine (sticky_mapM (sticky_any fuel) items).after fun _ => ?_
          exact ensures_pure fun _ _ => ⟨.list, rfl, .inl rfl⟩
      | mapping line tag entries =>
          refine (ensures_anyTable (sticky_any fuel) _ fuel entries).mono (fun _ _ => trivial) ?_
          rintro k m rfl
          exact ⟨_, rfl, .inl rfl⟩
      | «alias» line name target => exact ensures_refuse

end Fit
end ClientLoom.Yaml
