import ClientLoom.Proofs.Outcome
import ClientLoom.Proofs.Yaml.Nodes
import ClientLoom.Yaml.Fit

/-! # What fitting yields

`Fit.Yields P x` says that every value that comes of the work `x` satisfies `P`, whatever is known
before it.  Each way to fit nodes hands nodes of the document on, so a record that is read from a
node of the document (`Shape.yields_read`) satisfies whatever every part of its shape keeps for
such nodes (`Shape.Keeps`). -/

namespace ClientLoom.Yaml

variable {α β : Type}

namespace Fit

/-- Every value that comes of the work satisfies `P`. -/
def Yields (P : α → Prop) (x : Fit α) : Prop := ∀ t a t', x t = .ok (a, t') → P a

variable {P : β → Prop} {Q : α → Prop}

theorem yields_pure {a : α} (h : Q a) : Yields Q (pure a) := by
  rintro t b t' hb
  obtain rfl := (Prod.mk.inj (Except.ok.inj hb)).1
  exact h

theorem yields_refuse : Yields Q refuse := fun _ _ _ h => nomatch h

theorem yields_throw (e : Stop) : Yields Q (throw e) := fun _ _ _ h => nomatch h

theorem Yields.bind {x : Fit α} {f : α → Fit β} (hx : Yields Q x)
    (hf : ∀ a, Q a → Yields P (f a)) : Yields P (x >>= f) := by
  intro t b t' hb
  have hrun : (x t >>= fun p => f p.1 p.2) = .ok (b, t') := hb
  obtain ⟨⟨a, t''⟩, ha, hfa⟩ := bind_eq_ok_iff.mp hrun
  exact hf a (hx t a t'' ha) t'' b t' hfa

/-- What comes of the work before does not matter. -/
theorem Yields.after {x : Fit α} {f : α → Fit β} (hf : ∀ a, Yields P (f a)) :
    Yields P (x >>= f) :=
  Yields.bind (Q := fun _ => True) (fun _ _ _ _ => trivial) fun a _ => hf a

theorem yields_mapM {f : α → Fit β} {xs : List α} (hf : ∀ x ∈ xs, Yields P (f x)) :
    Yields (fun ys => ∀ y ∈ ys, P y) (xs.mapM f) := by
  induction xs with
  | nil => exact yields_pure (by simp)
  | cons x xs ih =>
      rw [List.mapM_cons]
      refine (hf x List.mem_cons_self).bind fun y hy => ?_
      refine (ih fun z hz => hf z (List.mem_cons_of_mem _ hz)).bind fun ys hys => ?_
      exact yields_pure (List.forall_mem_cons.mpr ⟨hy, hys⟩)

theorem yields_foldlM {f : β → α → Fit β} {xs : List α} {b : β} (hb : P b)
    (hf : ∀ b, P b → ∀ x ∈ xs, Yields P (f b x)) : Yields P (xs.foldlM f b) := by
  induction xs generalizing b with
  | nil => exact yields_pure hb
  | cons x xs ih =>
      rw [List.foldlM_cons]
      refine (hf b hb x List.mem_cons_self).bind fun c hc => ?_
      exact ih hc fun b hb y hy => hf b hb y (List.mem_cons_of_mem _ hy)

/-- A value that may be missing: `P` holds of it when it is there. -/
abbrev IfAny (P : α → Prop) (x : Option α) : Prop := ∀ a ∈ x, P a

theorem ifAny_none : IfAny Q none := fun _ h => nomatch h

theorem ifAny_some {a : α} (h : Q a) : IfAny Q (some a) :=
  fun _ hb => Option.some.inj hb ▸ h

theorem yields_flaw : Yields (IfAny Q) flaw := .after fun _ => yields_pure ifAny_none

theorem yields_nothing (tag : String) (style : Style) (text : String) :
    Yields (IfAny Q) (nothing tag style text) := by
  refine .after fun s => ?_
  cases s with
  | none => exact yields_pure ifAny_none
  | some s => exact yields_flaw

/-! ### Nodes -/

section nodes

variable {d : Document} {S : Node → Prop}

theorem yields_visit {n : Node} {use : Node → Fit α} (hd : d.Closed S) (hn : S n)
    (huse : ∀ m, S m → Yields Q (use m)) : Yields Q (visit d n use) := by
  refine .after fun _ => ?_
  match n with
  | .alias line name target =>
      cases htarget : d.anchors[target]? with
      | none => simpa only [htarget] using yields_refuse
      | some m =>
          have hm : S m := hd hn (.target htarget)
          simp only [htarget]
          refine .after fun t => ?_
          split
          · exact yields_refuse
          · exact .after fun _ => .after fun _ =>
              (huse m hm).bind fun a ha => .after fun _ => yields_pure ha
  | .scalar _ _ _ _ => exact huse _ hn
  | .sequence _ _ _ => exact huse _ hn
  | .mapping _ _ _ => exact huse _ hn

theorem yields_items {n : Node} {item : Node → Fit (Option α)} (hd : d.Closed S) (hn : S n)
    (hitem : ∀ m, S m → Yields (IfAny Q) (item m)) :
    Yields (IfAny fun xs => ∀ x ∈ xs, Q x) (items d item n) := by
  refine yields_visit hd hn fun m hm => ?_
  cases m with
  | sequence line tag ms =>
      have hms : Yields (fun xs => ∀ x ∈ xs, IfAny Q x) (ms.mapM item) :=
        yields_mapM fun x hx => hitem x (hd hm (.item hx))
      refine hms.bind fun xs hxs => yields_pure (ifAny_some fun x hx => ?_)
      obtain ⟨y, hy, hyx⟩ := List.mem_filterMap.mp hx
      exact hxs y hy x hyx
  | scalar line tag style text => exact yields_nothing tag style text
  | _ => exact yields_flaw

/-! ### Entries -/

theorem yields_useEntry {key : Node → Fit (Option Key)} {use : α → Key → Node → Fit α}
    {s : α × Option (List Key)} {e : Node × Node} (hs : Q s.1)
    (huse : ∀ a k, Q a → Yields Q (use a k e.2)) :
    Yields (fun s => Q s.1) (useEntry key use s e) := by
  unfold useEntry
  split
  · exact yields_pure hs
  · refine .after fun k => ?_
    split
    · exact yields_pure hs
    · exact (huse _ _ hs).bind fun a ha => yields_pure ha
    · split
      · exact yields_throw _
      · split
        · exact yields_pure hs
        · exact (huse _ _ hs).bind fun a ha => yields_pure ha

theorem yields_useEntries {key : Node → Fit (Option Key)} {use : α → Key → Node → Fit α} {a : α}
    {entries : List (Node × Node)} (ha : Q a)
    (huse : ∀ e ∈ entries, ∀ a k, Q a → Yields Q (use a k e.2)) :
    Yields Q (useEntries key use a entries) := by
  refine .after fun t => .after fun _ => ?_
  have hfold : Yields (fun s : α × Option (List Key) => Q s.1)
      (entries.foldlM (useEntry key use) (a, t.merged)) :=
    yields_foldlM ha fun s hs e he => yields_useEntry hs (huse e he)
  exact hfold.bind fun s hs => .after fun _ => yields_pure hs

theorem yields_merge {key : Node → Fit (Option Key)} {into : α → Node → Fit α} {a : α}
    {entries : List (Node × Node)} (hd : d.Closed S) (hentries : ∀ e ∈ entries, S e.2) (ha : Q a)
    (hinto : ∀ a n, Q a → S n → Yields Q (into a n)) : Yields Q (merge d key into a entries) := by
  unfold merge
  split
  · exact yields_pure ha
  · next n hlast =>
    have hn : S n :=
      hentries _ (List.mem_filter.mp (List.mem_of_getLast? hlast)).1
    have hsources : ∀ m ∈ mergeSources n, S m := by
      intro m hm
      cases n with
      | sequence line tag ms => exact hd hn (.item hm)
      | _ => exact List.mem_singleton.mp hm ▸ hn
    refine .after fun t => .after fun _ => ?_
    refine (yields_foldlM ha fun b hb m hm => ?_).bind fun b hb => ?_
    · unfold mergeOne
      split
      · exact hinto b m hb (hsources m hm)
      · exact yields_refuse
    · split
      · exact .after fun _ => yields_pure hb
      · exact yields_pure hb

end nodes
end Fit

/-! ### Records -/

namespace Shape

open Fit

variable {d : Document} {S : Node → Prop} {P : α → Prop} {s : Shape α}

/-- What holds of the record without entries, and goes on to hold when a part is read from a node
of the document. -/
structure Keeps (S : Node → Prop) (P : α → Prop) (s : Shape α) : Prop where
  empty : P s.empty
  part : ∀ name part, s.part name = some part → ∀ n a, S n → P a → Yields P (part n a)
  whole : ∀ w, s.whole = some w → ∀ n, S n → P (w n)

theorem yields_usePart (h : s.Keeps S P) {r : α × List String} {k : Key} {v : Node} (hr : P r.1)
    (hv : S v) : Yields (fun r => P r.1) (s.usePart r k v) := by
  unfold usePart
  split
  · split
    · next part hpart =>
      split
      · exact .after fun _ => yields_pure hr
      · exact (h.part _ _ hpart v r.1 hv hr).bind fun a ha => yields_pure ha
    · split
      · exact .after fun _ => yields_pure hr
      · exact yields_pure hr
  · exact yields_pure hr

theorem yields_add (hd : d.Closed S) (h : s.Keeps S P) (fuel : Nat) {a : α} {n : Node} (ha : P a)
    (hn : S n) : Yields (IfAny P) (s.add d fuel a n) := by
  induction fuel generalizing a n with
  | zero => exact yields_refuse
  | succ fuel ih =>
      unfold add
      split
      · next w hw _ => exact yields_pure (ifAny_some (h.whole w hw _ hn))
      · next line tag entries _ =>
        split
        · exact yields_flaw
        · have huse : Yields (fun r : α × List String => P r.1)
              (useEntries (fun n => do pure ((← text d n).map .text)) s.usePart (a, []) entries) :=
            yields_useEntries ha fun e he r k hr => yields_usePart h hr (hd hn (.value he))
          refine huse.bind fun r hr => ?_
          refine (yields_merge hd (fun e he => (hd hn (.value he))) hr ?_).bind fun b hb =>
            yields_pure (ifAny_some hb)
          intro b m hb hm
          refine yields_visit hd hm fun m hm => (ih hb hm).bind fun x hx => yields_pure ?_
          cases x with
          | none => exact hb
          | some c => exact hx c rfl
      · exact yields_nothing _ _ _
      · exact yields_flaw

theorem yields_read (hd : d.Closed S) (h : s.Keeps S P) {n : Node} (hn : S n) :
    Yields (IfAny P) (s.read d n) :=
  yields_visit hd hn fun _ hm => yields_add hd h _ h.empty hm

theorem yields_readMaybe (hd : d.Closed S) (h : s.Keeps S P) {n : Node} (hn : S n) :
    Yields (IfAny P) (s.readMaybe d n) := by
  refine yields_visit hd hn fun m hm => ?_
  split
  · exact yields_nothing _ _ _
  · exact yields_flaw
  · exact yields_add hd h _ h.empty hm

end Shape
end ClientLoom.Yaml
