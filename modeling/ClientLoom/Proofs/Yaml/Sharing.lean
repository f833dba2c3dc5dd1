import Mathlib.Data.Finset.Card
import ClientLoom.Proofs.Yaml.Yields

/-! # Nodes that documents share

What comes of a node depends on the node and on what the aliases in it stand for, and on nothing
else in its document.  `Document.Shares d d' S` says that nodes in `S` have their parts in `S` and
are nodes of both documents, where aliases in `S` stand for the same.

The numbers that bound the nesting are taken from the whole document, so they are not the same in
two documents.  They do not matter: work at a node goes only into parts of it and, by way of an
alias, into an anchored node that it is not in already, so `Document.Shares.room` is lost with each
step (`Alike.visit`).  Hence the work is the same whatever the numbers are, as long as they are
greater than that (`alike_any`, `Shape.alike_read`). -/

namespace ClientLoom.Yaml

variable {α β : Type}

/-! ### Shared nodes -/

/-- Nodes in `S` have their parts in `S`, belong to both documents, and their aliases stand for the
same nodes. -/
structure Document.Shares (d d' : Document) (S : Node → Prop) : Prop where
  closed : d.Closed S
  mem : ∀ n, S n → n ∈ d.nodes ∧ n ∈ d'.nodes
  anchors : ∀ line name target, S (.alias line name target) →
    d'.anchors[target]? = d.anchors[target]?

namespace Document

variable {d d' : Document} {S : Node → Prop} {ar : List Nat}

/-- How deep the work can go at the node `n`, inside the anchored nodes with the numbers in
`ar`. -/
def room (d d' : Document) (ar : List Nat) (n : Node) : Nat :=
  (Finset.range (min d.anchors.length d'.anchors.length) \ ar.toFinset).card *
    min d.bound d'.bound + n.size

theorem room_pos (n : Node) : 0 < room d d' ar n := by
  unfold room
  rw [← Node.length_nodes]
  exact Nat.add_pos_right _ (List.length_pos_of_mem n.mem_nodes_self)

theorem room_lt_of_size_lt {m n : Node} (h : m.size < n.size) : room d d' ar m < room d d' ar n :=
  Nat.add_lt_add_left h _

theorem Shares.resolve (h : d.Shares d' S) {n : Node} (hn : S n) : d'.resolve n = d.resolve n := by
  match n with
  | .alias line name target => simp only [Document.resolve, h.anchors line name target hn]
  | .scalar _ _ _ _ | .sequence _ _ _ | .mapping _ _ _ => rfl

theorem Shares.size_lt (h : d.Shares d' S) {n : Node} (hn : S n) :
    n.size < min d.bound d'.bound :=
  lt_min (size_lt_bound (h.mem n hn).1) (size_lt_bound (h.mem n hn).2)

/-- Following an alias uses up its anchor. -/
theorem Shares.room_lt_of_target (h : d.Shares d' S) {line : Nat} {name : String} {target : Nat}
    {m : Node} (hn : S (.alias line name target)) (hm : d.anchors[target]? = some m)
    (hnew : target ∉ ar) :
    room d d' (target :: ar) m < room d d' ar (.alias line name target) := by
  have hsize : m.size < min d.bound d'.bound := h.size_lt (h.closed hn (.target hm))
  have hlt : target < min d.anchors.length d'.anchors.length := by
    obtain ⟨hd, -⟩ := List.getElem?_eq_some_iff.mp hm
    obtain ⟨hd', -⟩ := List.getElem?_eq_some_iff.mp ((h.anchors _ _ _ hn).trans hm)
    exact lt_min hd hd'
  have hcard : (Finset.range (min d.anchors.length d'.anchors.length) \
      (target :: ar).toFinset).card <
        (Finset.range (min d.anchors.length d'.anchors.length) \ ar.toFinset).card := by
    refine Finset.card_lt_card ((Finset.ssubset_iff_of_subset fun x hx => ?_).mpr ⟨target, ?_, ?_⟩)
    · simp_all
    · simp [hlt, hnew]
    · simp
  have hmul := Nat.mul_le_mul_right (min d.bound d'.bound) (Nat.succ_le_of_lt hcard)
  rw [Nat.succ_mul] at hmul
  unfold room
  omega

theorem Shares.room_lt_depth (h : d.Shares d' S) {n : Node} (hn : S n) :
    room d d' ar n < d.depth ∧ room d d' ar n < d'.depth := by
  have hsize := h.size_lt hn
  have hcard : (Finset.range (min d.anchors.length d'.anchors.length) \ ar.toFinset).card ≤
      min d.anchors.length d'.anchors.length :=
    (Finset.card_le_card Finset.sdiff_subset).trans_eq (Finset.card_range _)
  have hroom : room d d' ar n <
      (min d.anchors.length d'.anchors.length + 1) * min d.bound d'.bound := by
    unfold room
    rw [Nat.succ_mul]
    exact Nat.add_lt_add_of_le_of_lt (Nat.mul_le_mul_right _ hcard) hsize
  have hdepth : ∀ e : Document, min d.anchors.length d'.anchors.length ≤ e.anchors.length →
      min d.bound d'.bound ≤ e.bound → room d d' ar n < e.depth := by
    intro e hanchors hbound
    refine hroom.trans_le ?_
    unfold Document.depth
    rw [Nat.mul_comm]
    exact Nat.mul_le_mul (by omega) (by omega)
  exact ⟨hdepth d (min_le_left _ _) (min_le_left _ _),
    hdepth d' (min_le_right _ _) (min_le_right _ _)⟩

end Document

namespace Fit

open Document (room)

/-! ### Works that do the same -/

/-- Begun inside the anchored nodes with the numbers in `ar`, two works do the same and end inside
those with the numbers in `ar'`. -/
def AlikeBetween (ar ar' : List Nat) (x y : Fit α) : Prop :=
  ∀ t, t.around = ar → x t = y t ∧ ∀ a t', x t = .ok (a, t') → t'.around = ar'

/-- Begun inside the anchored nodes with the numbers in `ar`, two works do the same and end
there. -/
abbrev Alike (ar : List Nat) (x y : Fit α) : Prop := AlikeBetween ar ar x y

variable {ar ar' ar'' : List Nat} {x y : Fit α}

theorem AlikeBetween.bind {f g : α → Fit β} (h : AlikeBetween ar ar' x y)
    (hf : ∀ a, AlikeBetween ar' ar'' (f a) (g a)) :
    AlikeBetween ar ar'' (x >>= f) (y >>= g) := by
  intro t ht
  obtain ⟨heq, hend⟩ := h t ht
  show (x t >>= fun p => f p.1 p.2) = (y t >>= fun p => g p.1 p.2) ∧
    ∀ b t', (x t >>= fun p => f p.1 p.2) = .ok (b, t') → t'.around = ar''
  rw [← heq]
  cases hx : x t with
  | error e => exact ⟨rfl, fun _ _ h => nomatch h⟩
  | ok p => exact hf p.1 p.2 (hend p.1 p.2 hx)

theorem alike_pure (a : α) : Alike ar (pure a) (pure a) := by
  refine fun t ht => ⟨rfl, fun b t' hrun => ?_⟩
  obtain ⟨-, rfl⟩ := Prod.mk.inj (Except.ok.inj hrun)
  exact ht

theorem alike_refuse : AlikeBetween ar ar' (refuse : Fit α) refuse :=
  fun _ _ => ⟨rfl, fun _ _ h => nomatch h⟩

theorem alike_throw (e : Stop) : AlikeBetween ar ar' (throw e : Fit α) (throw e) :=
  fun _ _ => ⟨rfl, fun _ _ h => nomatch h⟩

/-- Of what is known when the work looks at it, the anchored nodes are. -/
theorem alike_get_bind {f g : Tally → Fit α}
    (h : ∀ t, t.around = ar → AlikeBetween ar ar' (f t) (g t)) :
    AlikeBetween ar ar' (get >>= f) (get >>= g) :=
  fun t ht => h t ht t ht

theorem alike_modify {f : Tally → Tally} (hf : ∀ t, t.around = ar → (f t).around = ar') :
    AlikeBetween ar ar' (modify f : Fit PUnit) (modify f) := by
  refine fun t ht => ⟨rfl, fun b t' hrun => ?_⟩
  obtain ⟨-, rfl⟩ := Prod.mk.inj (Except.ok.inj hrun)
  exact hf t ht

theorem alike_setMerged (merged : Tally → Option (List Key)) :
    Alike ar (modify fun t => { t with merged := merged t })
      (modify fun t => { t with merged := merged t }) :=
  alike_modify fun _ ht => ht

theorem alike_noteFlaw : Alike ar noteFlaw noteFlaw := alike_modify fun _ ht => ht

theorem alike_flaw : Alike ar (flaw : Fit (Option α)) flaw :=
  alike_noteFlaw.bind fun _ => alike_pure none

theorem alike_count : Alike ar count count := by
  refine fun t ht => ⟨rfl, fun b t' hrun => ?_⟩
  unfold count at hrun
  extract_lets t₁ at hrun
  split at hrun
  · obtain ⟨-, rfl⟩ := Prod.mk.inj (Except.ok.inj hrun)
    exact ht
  · cases hrun

theorem alike_mapM {f g : α → Fit β} {xs : List α} (h : ∀ x ∈ xs, Alike ar (f x) (g x)) :
    Alike ar (xs.mapM f) (xs.mapM g) := by
  induction xs with
  | nil => exact alike_pure []
  | cons x xs ih =>
      rw [List.mapM_cons, List.mapM_cons]
      refine (h x List.mem_cons_self).bind fun y => ?_
      exact (ih fun z hz => h z (List.mem_cons_of_mem _ hz)).bind fun ys => alike_pure (y :: ys)

theorem alike_foldlM {f g : β → α → Fit β} {xs : List α} (b : β)
    (h : ∀ b, ∀ x ∈ xs, Alike ar (f b x) (g b x)) : Alike ar (xs.foldlM f b) (xs.foldlM g b) := by
  induction xs generalizing b with
  | nil => exact alike_pure b
  | cons x xs ih =>
      rw [List.foldlM_cons, List.foldlM_cons]
      refine (h b x List.mem_cons_self).bind fun c => ?_
      exact ih c fun b z hz => h b z (List.mem_cons_of_mem _ hz)

theorem alike_forM {f g : α → Fit PUnit} {xs : List α} (h : ∀ x ∈ xs, Alike ar (f x) (g x)) :
    Alike ar (xs.forM f) (xs.forM g) := by
  induction xs with
  | nil => exact alike_pure PUnit.unit
  | cons x xs ih =>
      exact (h x List.mem_cons_self).bind fun _ => ih fun z hz => h z (List.mem_cons_of_mem _ hz)

/-- Alike works on whole documents have the same result. -/
theorem Alike.result_eq (h : Alike [] x y) : x.result = y.result := by
  unfold result
  rw [(h {} rfl).1]

/-! ### Scalars -/

theorem alike_scalarText (tag : String) (style : Style) (text : String) :
    Alike ar (scalarText tag style text) (scalarText tag style text) := by
  unfold scalarText
  split
  · exact alike_refuse
  · exact alike_pure none
  · split
    · exact alike_pure _
    · exact alike_refuse

theorem alike_nothing (tag : String) (style : Style) (text : String) :
    Alike ar (nothing tag style text : Fit (Option α)) (nothing tag style text) := by
  refine (alike_scalarText tag style text).bind fun s => ?_
  cases s with
  | none => exact alike_pure none
  | some s => exact alike_flaw

theorem alike_scalarKey (tag : String) (style : Style) (text : String) :
    Alike ar (scalarKey tag style text) (scalarKey tag style text) := by
  refine (alike_scalarText tag style text).bind fun s => ?_
  split
  · exact alike_pure _
  · exact alike_pure _
  · exact alike_pure _
  · exact alike_refuse

/-! ### Nodes -/

section nodes

variable {d d' : Document} {S : Node → Prop}

/-- What is done at the node that is meant goes no deeper than at the node itself. -/
theorem Alike.visit {n : Node} {use use' : Node → Fit α} (h : d.Shares d' S) (hn : S n)
    (huse : ∀ ar' m, S m → room d d' ar' m ≤ room d d' ar n → Alike ar' (use m) (use' m)) :
    Alike ar (Fit.visit d n use) (Fit.visit d' n use') := by
  refine alike_count.bind fun _ => ?_
  match n with
  | .alias line name target =>
      have hanchors := h.anchors line name target hn
      cases htarget : d.anchors[target]? with
      | none => simpa only [hanchors, htarget] using alike_refuse
      | some m =>
          have hm : S m := h.closed hn (.target htarget)
          simp only [hanchors, htarget]
          refine alike_get_bind fun t ht => ?_
          split
          · exact alike_refuse
          · next hnew =>
            rw [ht, List.contains_iff_mem] at hnew
            refine (alike_modify fun t ht => congrArg (target :: ·) ht).bind fun _ => ?_
            refine alike_count.bind fun _ => ?_
            refine (huse _ m hm (h.room_lt_of_target hn htarget hnew).le).bind fun a => ?_
            exact (alike_modify fun t ht => congrArg List.tail ht).bind fun _ => alike_pure a
  | .scalar _ _ _ _ => exact huse ar _ hn le_rfl
  | .sequence _ _ _ => exact huse ar _ hn le_rfl
  | .mapping _ _ _ => exact huse ar _ hn le_rfl

theorem alike_text {n : Node} (h : d.Shares d' S) (hn : S n) :
    Alike ar (text d n) (text d' n) := by
  refine Alike.visit h hn fun ar' m _ _ => ?_
  cases m with
  | scalar line tag style text => exact alike_scalarText tag style text
  | _ => exact alike_flaw

theorem alike_truth {n : Node} (h : d.Shares d' S) (hn : S n) :
    Alike ar (truth d n) (truth d' n) := by
  refine Alike.visit h hn fun ar' m _ _ => ?_
  cases m with
  | scalar line tag style text =>
      dsimp only
      split
      · exact alike_pure _
      · refine (alike_scalarText tag style text).bind fun s => ?_
        split
        · exact alike_pure _
        · exact alike_flaw
      · exact alike_nothing tag style text
  | _ => exact alike_flaw

theorem alike_items {n : Node} {item item' : Node → Fit (Option α)} (h : d.Shares d' S) (hn : S n)
    (hitem : ∀ ar' m, S m → room d d' ar' m < room d d' ar n → Alike ar' (item m) (item' m)) :
    Alike ar (items d item n) (items d' item' n) := by
  refine Alike.visit h hn fun ar' m hm hroom => ?_
  cases m with
  | sequence line tag ms =>
      refine (alike_mapM fun x hx => ?_).bind fun xs => alike_pure _
      have hlt : room d d' ar' x < room d d' ar' (.sequence line tag ms) :=
        Document.room_lt_of_size_lt (Node.size_lt_of_mem_items hx)
      exact hitem ar' x (h.closed hm (.item hx)) (hlt.trans_le hroom)
  | scalar line tag style text => exact alike_nothing tag style text
  | _ => exact alike_flaw

/-! ### Entries -/

section entries

variable {key key' : Node → Fit (Option Key)} {entries : List (Node × Node)}

theorem alike_useEntry {use use' : α → Key → Node → Fit α} {e : Node × Node}
    (s : α × Option (List Key)) (hkey : Alike ar (key e.1) (key' e.1))
    (huse : ∀ a k, Alike ar (use a k e.2) (use' a k e.2)) :
    Alike ar (useEntry key use s e) (useEntry key' use' s e) := by
  unfold useEntry
  split
  · exact alike_pure s
  · refine hkey.bind fun k => ?_
    split
    · exact alike_pure s
    · exact (huse _ _).bind fun a => alike_pure _
    · split
      · exact alike_throw _
      · split
        · exact alike_pure s
        · exact (huse _ _).bind fun a => alike_pure _

theorem alike_useEntries {use use' : α → Key → Node → Fit α} (a : α)
    (hkey : ∀ e ∈ entries, Alike ar (key e.1) (key' e.1))
    (huse : ∀ e ∈ entries, ∀ a k, Alike ar (use a k e.2) (use' a k e.2)) :
    Alike ar (useEntries key use a entries) (useEntries key' use' a entries) := by
  refine alike_get_bind fun t _ => (alike_setMerged fun _ => none).bind fun _ => ?_
  refine (alike_foldlM _ fun s e he => alike_useEntry s (hkey e he) (huse e he)).bind fun s => ?_
  exact (alike_setMerged fun _ => s.2).bind fun _ => alike_pure s.1

theorem alike_note (k : Key) : Alike ar (note k) (note k) := by
  unfold note
  split
  · exact alike_throw _
  · exact alike_setMerged fun t => t.merged.map (k :: ·)

theorem alike_noteKeys (hkey : ∀ e ∈ entries, Alike ar (key e.1) (key' e.1)) :
    Alike ar (noteKeys key entries) (noteKeys key' entries) := by
  refine alike_get_bind fun t _ => ?_
  split
  · refine (alike_setMerged fun _ => some []).bind fun _ => alike_forM fun e he => ?_
    refine (hkey e he).bind fun k => ?_
    cases k with
    | none => exact alike_pure PUnit.unit
    | some k => exact alike_note k
  · exact alike_pure PUnit.unit

theorem alike_merge {into into' : α → Node → Fit α} {line : Nat} {tag : String} (a : α)
    (h : d.Shares d' S) (hn : S (.mapping line tag entries))
    (hkey : ∀ e ∈ entries, Alike ar (key e.1) (key' e.1))
    (hinto : ∀ a m, S m → room d d' ar m < room d d' ar (.mapping line tag entries) →
      Alike ar (into a m) (into' a m)) :
    Alike ar (merge d key into a entries) (merge d' key' into' a entries) := by
  unfold merge
  split
  · exact alike_pure a
  · next k n hlast =>
    have he := (List.mem_filter.mp (List.mem_of_getLast? hlast)).1
    have hvalue : S n := h.closed hn (.value he)
    have hlt : n.size < (Node.mapping line tag entries).size := (Node.size_lt_of_mem_entries he).2
    have hsources : ∀ m ∈ mergeSources n, S m ∧ m.size < (Node.mapping line tag entries).size := by
      intro m hm
      cases n with
      | sequence line tag ms =>
          exact ⟨h.closed hvalue (.item hm), (Node.size_lt_of_mem_items hm).trans hlt⟩
      | _ => exact List.mem_singleton.mp hm ▸ ⟨hvalue, hlt⟩
    refine alike_get_bind fun t _ => (alike_noteKeys hkey).bind fun _ => ?_
    refine (alike_foldlM a fun b m hm => ?_).bind fun b => ?_
    · obtain ⟨hmS, hmlt⟩ := hsources m hm
      unfold mergeOne
      rw [h.resolve hmS]
      split
      · exact hinto b m hmS (Document.room_lt_of_size_lt hmlt)
      · exact alike_refuse
    · split
      · exact (alike_setMerged fun _ => none).bind fun _ => alike_pure b
      · exact alike_pure b

end entries

/-! ### Nodes of any form -/

theorem isTextual_eq (h : d.Shares d' S) {entries : List (Node × Node)}
    (hkeys : ∀ e ∈ entries, S e.1) : isTextual d' entries = isTextual d entries := by
  unfold isTextual
  refine Bool.eq_iff_iff.mpr ?_
  simp only [List.all_eq_true]
  exact forall₂_congr fun e he => by rw [h.resolve (hkeys e he)]

/-- Keys and values are read by works that are alike where there is less room than `k`. -/
theorem alike_anyTable {value value' : Node → Fit (Option Key)} {k : Nat} {line : Nat}
    {tag : String} {entries : List (Node × Node)} (h : d.Shares d' S)
    (hvalue : ∀ ar' m, S m → room d d' ar' m < k → Alike ar' (value m) (value' m))
    (textual : Bool) (fuel fuel' : Nat) (hn : S (.mapping line tag entries))
    (hk : room d d' ar (.mapping line tag entries) ≤ k)
    (hfuel : room d d' ar (.mapping line tag entries) ≤ fuel)
    (hfuel' : room d d' ar (.mapping line tag entries) ≤ fuel') :
    Alike ar (anyTable d value textual fuel entries)
      (anyTable d' value' textual fuel' entries) := by
  have hpos : 0 < room d d' ar (.mapping line tag entries) := Document.room_pos _
  induction fuel generalizing ar line tag entries fuel' with
  | zero => omega
  | succ fuel ih =>
      obtain ⟨fuel', rfl⟩ : ∃ n, fuel' = n + 1 := ⟨fuel' - 1, by omega⟩
      have hkeys : ∀ e ∈ entries, Alike ar (value e.1) (value' e.1) := fun e he =>
        hvalue ar e.1 (h.closed hn (.key he))
          ((Document.room_lt_of_size_lt (Node.size_lt_of_mem_entries he).1).trans_le hk)
      have hvalues : ∀ e ∈ entries, Alike ar (value e.2) (value' e.2) := fun e he =>
        hvalue ar e.2 (h.closed hn (.value he))
          ((Document.room_lt_of_size_lt (Node.size_lt_of_mem_entries he).2).trans_le hk)
      unfold anyTable
      split
      · exact alike_flaw
      · refine (alike_useEntries () (fun e he => ?_) fun e he a k => ?_).bind fun _ => ?_
        · split
          · exact (alike_text h (h.closed hn (.key he))).bind fun s => alike_pure _
          · exact hkeys e he
        · split
          · exact alike_refuse
          · exact (hvalues e he).bind fun _ => alike_pure _
        · refine (alike_merge () h hn hkeys fun _ m hm hlt => ?_).bind fun _ => alike_pure _
          refine Alike.visit h hm fun ar' m' hm' hroom => ?_
          cases m' with
          | mapping line' tag' entries' =>
              refine (ih fuel' hm' ?_ ?_ ?_ (Document.room_pos _)).bind fun _ => alike_pure _
              all_goals omega
          | _ => exact alike_refuse

/-- How a node of any form is read does not depend on its document, nor on the bound of the
nesting. -/
theorem alike_any (h : d.Shares d' S) (fuel fuel' : Nat) {n : Node} (hn : S n)
    (hfuel : room d d' ar n < fuel) (hfuel' : room d d' ar n < fuel') :
    Alike ar (any d fuel n) (any d' fuel' n) := by
  induction fuel generalizing ar fuel' n with
  | zero => omega
  | succ fuel ih =>
      obtain ⟨fuel', rfl⟩ : ∃ n, fuel' = n + 1 := ⟨fuel' - 1, by omega⟩
      unfold any
      refine Alike.visit h hn fun ar' m hm hroom => ?_
      match m with
      | .scalar line tag style text => exact alike_scalarKey tag style text
      | .sequence line tag ms =>
          refine (alike_mapM fun x hx => ?_).bind fun _ => alike_pure _
          have hlt : room d d' ar' x < room d d' ar' (.sequence line tag ms) :=
            Document.room_lt_of_size_lt (Node.size_lt_of_mem_items hx)
          exact ih fuel' (h.closed hm (.item hx)) (by omega) (by omega)
      | .mapping line tag entries =>
          have htextual := isTextual_eq h fun e he => h.closed hm (.key he)
          simp only [htextual]
          refine alike_anyTable h (fun ar'' x hx hlt => ?_) _ fuel fuel' hm le_rfl ?_ ?_
          · exact ih fuel' hx (by omega) (by omega)
          all_goals omega
      | .alias line name target => exact alike_refuse

end nodes
end Fit

/-! ### Records -/

namespace Shape

open Fit
open Document (room)

variable {d d' : Document} {S : Node → Prop} {s s' : Shape α} {ar : List Nat}

/-- Parts of one kind for two documents, which do the same at nodes in `S`. -/
def PartAlike (S : Node → Prop) (part part' : Node → α → Fit α) : Prop :=
  ∀ ar n a, S n → Fit.Alike ar (part n a) (part' n a)

/-- Shapes of one kind of record for two documents, which have parts of the same kinds. -/
structure Alike (S : Node → Prop) (s s' : Shape α) : Prop where
  empty : s'.empty = s.empty
  strict : s'.strict = s.strict
  whole : s'.whole = s.whole
  part : ∀ name, Option.Rel (PartAlike S) (s.part name) (s'.part name)

theorem alike_usePart (hs : s.Alike S s') (r : α × List String) (k : Key) {v : Node} (hv : S v) :
    Fit.Alike ar (s.usePart r k v) (s'.usePart r k v) := by
  unfold usePart
  split
  · next name =>
    have hpart := hs.part name
    generalize s.part name = part, s'.part name = part' at hpart ⊢
    cases hpart with
    | none =>
        rw [hs.strict]
        dsimp only
        split
        · exact alike_noteFlaw.bind fun _ => alike_pure r
        · exact alike_pure r
    | some hpart =>
        dsimp only
        split
        · exact alike_noteFlaw.bind fun _ => alike_pure r
        · exact (hpart ar v r.1 hv).bind fun a => alike_pure _
  · exact alike_pure r

theorem alike_add (h : d.Shares d' S) (hs : s.Alike S s') (fuel fuel' : Nat) (a : α) {n : Node}
    (hn : S n) (hfuel : room d d' ar n < fuel) (hfuel' : room d d' ar n < fuel') :
    Fit.Alike ar (s.add d fuel a n) (s'.add d' fuel' a n) := by
  induction fuel generalizing ar fuel' a n with
  | zero => omega
  | succ fuel ih =>
      obtain ⟨fuel', rfl⟩ : ∃ n, fuel' = n + 1 := ⟨fuel' - 1, by omega⟩
      unfold add
      rw [hs.whole]
      split
      · exact alike_pure _
      · next line tag entries _ =>
        split
        · exact alike_flaw
        · have hkeys : ∀ e ∈ entries, S e.1 := fun e he => h.closed hn (.key he)
          refine (alike_useEntries _ (fun e he => ?_) fun e he r k => ?_).bind fun r => ?_
          · exact (alike_text h (hkeys e he)).bind fun s => alike_pure _
          · exact alike_usePart hs r k (h.closed hn (.value he))
          · refine (alike_merge r.1 h hn (fun e he => ?_) fun b m hm hlt => ?_).bind fun b =>
              alike_pure _
            · have hlt : room d d' ar e.1 < room d d' ar (.mapping line tag entries) :=
                Document.room_lt_of_size_lt (Node.size_lt_of_mem_entries he).1
              exact alike_any h fuel fuel' (hkeys e he) (by omega) (by omega)
            · refine Alike.visit h hm fun ar' m' hm' hroom => ?_
              exact (ih fuel' b hm' (by omega) (by omega)).bind fun x => alike_pure _
      · exact alike_nothing _ _ _
      · exact alike_flaw

/-- A record is read alike in documents that share its node. -/
theorem alike_read (h : d.Shares d' S) (hs : s.Alike S s') {n : Node} (hn : S n) :
    Fit.Alike ar (s.read d n) (s'.read d' n) := by
  unfold read
  rw [hs.empty]
  refine Alike.visit h hn fun ar' m hm _ => ?_
  exact alike_add h hs _ _ _ hm (h.room_lt_depth hm).1 (h.room_lt_depth hm).2

theorem alike_readMaybe (h : d.Shares d' S) (hs : s.Alike S s') {n : Node} (hn : S n) :
    Fit.Alike ar (s.readMaybe d n) (s'.readMaybe d' n) := by
  unfold readMaybe
  rw [hs.empty]
  refine Alike.visit h hn fun ar' m hm _ => ?_
  split
  · exact alike_nothing _ _ _
  · exact alike_flaw
  · exact alike_add h hs _ _ _ hm (h.room_lt_depth hm).1 (h.room_lt_depth hm).2

end Shape
end ClientLoom.Yaml
