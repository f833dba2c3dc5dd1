import Mathlib.Data.List.Induction
import ClientLoom.Proofs.Walk.Terms

/-! # The offers of a walk

An address says where a term stands in a tree, and `Address.Before` puts addresses in post-order.  A
log of offers is in post-order (`Offer.PostOrder`) when it has the addresses of the terms of the
tree in that order, all of them and no others, and each term was offered with the results of its
children in their places.  Such a log grows with the tree: by the log of one more term behind the
others (`Offer.PostOrder.concat`) and by the offer of the term around them
(`Offer.PostOrder.concat_root`).

What is offered is what the replacer gets to know.  `Replacer.recording` writes it down, and
`Replacer.Makes` says that this is a log, that the answers in it are those of the replacer in the
states that the walk hands on, and that the walk counts the replacements among them.  Every walk
over a term makes the offers of a log in post-order (`Replacer.exists_visits`). -/

namespace ClientLoom

/-! ### Addresses -/

/-- Where a term stands in a tree: at each level from the top, the number of the child on the way to
it. -/
abbrev Address := List Nat

/-- Post-order: what stands inside of a term comes before it, and what stands in an earlier child,
or is that child, comes before what stands in a later one. -/
def Address.Before : Address → Address → Prop
  | [], _ => False
  | _ :: _, [] => True
  | i :: a, j :: b => i < j ∨ i = j ∧ Before a b

theorem Address.not_before_self : ∀ a : Address, ¬ Before a a
  | [], h => h
  | _ :: a, h => by
      rcases h with h | ⟨-, h⟩
      · exact Nat.lt_irrefl _ h
      · exact not_before_self a h

namespace Term

/-- The term at an address in a term. -/
def at? : Term → Address → Option Term
  | t, [] => some t
  | t, i :: a => t.children[i]?.bind fun c => c.at? a

/-- The term at an address in one of several terms; the first number tells in which. -/
def among? (ts : List Term) : Address → Option Term
  | [] => none
  | i :: a => ts[i]?.bind fun t => t.at? a

theorem among?_append_left {ts us : List Term} {a : Address} {t : Term}
    (h : among? ts a = some t) : among? (ts ++ us) a = some t := by
  cases a with
  | nil => cases h
  | cons i a =>
      obtain ⟨c, hc, ht⟩ := Option.bind_eq_some_iff.mp h
      obtain ⟨hi, -⟩ := List.getElem?_eq_some_iff.mp hc
      rw [among?, List.getElem?_append_left hi]
      exact h

theorem among?_concat_length (ts : List Term) (t : Term) (a : Address) :
    among? (ts ++ [t]) (ts.length :: a) = t.at? a := by
  simp [among?]

/-- An address in one more term is one in the terms before it or one in that term. -/
theorem cases_among?_concat {ts : List Term} {t u : Term} {a : Address}
    (h : among? (ts ++ [t]) a = some u) :
    among? ts a = some u ∨ ∃ b, a = ts.length :: b ∧ t.at? b = some u := by
  cases a with
  | nil => cases h
  | cons i a =>
      rcases Nat.lt_trichotomy i ts.length with hlt | rfl | hgt
      · rw [among?, List.getElem?_append_left hlt] at h
        exact .inl h
      · exact .inr ⟨a, rfl, among?_concat_length ts t a ▸ h⟩
      · rw [among?, List.getElem?_eq_none (by simp; omega)] at h
        cases h

theorem lt_length_of_among? {ts : List Term} {t : Term} {i : Nat} {a : Address}
    (h : among? ts (i :: a) = some t) : i < ts.length := by
  obtain ⟨c, hc, -⟩ := Option.bind_eq_some_iff.mp h
  exact (List.getElem?_eq_some_iff.mp hc).1

end Term

/-! ### Offers -/

/-- An offer of a walk: where the term stands in the tree that is walked, the term as it is offered,
and the answer. -/
structure Offer where
  address : Address
  term : Term
  answer : Option Term

namespace Offer

/-- What stands in the place of the term from then on. -/
def result (o : Offer) : Term := o.answer.getD o.term

/-- What the replacer gets to know and says. -/
def call (o : Offer) : Term × Option Term := (o.term, o.answer)

/-- The offer, for a tree in which its own tree is the child with the given number. -/
def under (i : Nat) (o : Offer) : Offer := { o with address := i :: o.address }

/-- The terms right inside of an address, as many as `count`, were offered and came to the given
results, in order. -/
structure Settled (log : List Offer) (a : Address) (count : Nat) (results : List Term) : Prop where
  length : results.length = count
  result : ∀ i t, results[i]? = some t → ∃ o ∈ log, o.address = a ++ [i] ∧ o.result = t

/-- The terms of a tree, given by their addresses, are offered in post-order, all of them and no
others, and each with the results of its children in their places. -/
structure PostOrder (at? : Address → Option Term) (log : List Offer) : Prop where
  sorted : log.Pairwise fun o p => o.address.Before p.address
  complete : ∀ a t, at? a = some t → ∃ o ∈ log, o.address = a
  offered : ∀ o ∈ log, ∃ t results, at? o.address = some t ∧
    Settled log o.address t.children.length results ∧
      o.term = t.withChildren results ∧ o.term.children = results

variable {log log' : List Offer} {a : Address} {count : Nat} {results : List Term}

theorem Settled.mono (h : Settled log a count results) (hlog : log ⊆ log') :
    Settled log' a count results where
  length := h.length
  result i t ht := by
    obtain ⟨o, ho, ha, hresult⟩ := h.result i t ht
    exact ⟨o, hlog ho, ha, hresult⟩

theorem Settled.under (h : Settled log a count results) (j : Nat) :
    Settled (log.map (under j)) (j :: a) count results where
  length := h.length
  result i t ht := by
    obtain ⟨o, ho, ha, hresult⟩ := h.result i t ht
    exact ⟨o.under j, List.mem_map_of_mem ho, congrArg (j :: ·) ha, hresult⟩

/-- One more term, with its own result. -/
theorem Settled.concat (h : Settled log [] count results) {o : Offer} (ho : o ∈ log')
    (ha : o.address = []) :
    Settled (log ++ log'.map (Offer.under count)) [] (count + 1) (results ++ [o.result]) where
  length := by rw [List.length_append, h.length]; rfl
  result i t ht := by
    rcases Nat.lt_or_ge i results.length with hi | hi
    · rw [List.getElem?_append_left hi] at ht
      exact (h.mono (List.subset_append_left _ _)).result i t ht
    · rw [List.getElem?_append_right hi, List.getElem?_singleton] at ht
      split at ht
      · obtain rfl : i = count := by have := h.length; omega
        refine ⟨o.under i, List.mem_append_right _ (List.mem_map_of_mem ho), ?_,
          Option.some.inj ht⟩
        rw [Offer.under, ha]
        rfl
      · cases ht

theorem PostOrder.exists_address_eq_cons {ts : List Term} (h : PostOrder (Term.among? ts) log)
    {o : Offer} (ho : o ∈ log) : ∃ i a, o.address = i :: a ∧ i < ts.length := by
  obtain ⟨t, -, ht, -⟩ := h.offered o ho
  cases ha : o.address with
  | nil => rw [ha] at ht; cases ht
  | cons i a => exact ⟨i, a, rfl, Term.lt_length_of_among? (ha ▸ ht)⟩

theorem PostOrder.nodup {at? : Address → Option Term} (h : PostOrder at? log) :
    (log.map Offer.address).Nodup := by
  refine List.pairwise_map.mpr (h.sorted.imp fun {o p} hbefore heq => ?_)
  rw [heq] at hbefore
  exact Address.not_before_self _ hbefore

theorem PostOrder.nil : PostOrder (Term.among? []) [] where
  sorted := .nil
  complete b u hu := by cases b <;> cases hu
  offered := nofun

/-- A term that is offered behind those inside of it. -/
theorem PostOrder.concat_root {t : Term} (h : PostOrder (Term.among? t.children) log)
    (hsettled : Settled log [] t.children.length results) {o : Offer} (ha : o.address = [])
    (hterm : o.term = t.withChildren results) (hchildren : o.term.children = results) :
    PostOrder t.at? (log ++ [o]) where
  sorted := by
    refine List.pairwise_append.mpr ⟨h.sorted, List.pairwise_singleton _ _, fun p hp q hq => ?_⟩
    obtain rfl := List.mem_singleton.mp hq
    obtain ⟨i, b, hb, -⟩ := h.exists_address_eq_cons hp
    rw [ha, hb]
    trivial
  complete b u hu := by
    cases b with
    | nil => exact ⟨o, List.mem_append_right _ (List.mem_singleton_self o), ha⟩
    | cons i b =>
        obtain ⟨p, hp, hb⟩ := h.complete (i :: b) u hu
        exact ⟨p, List.mem_append_left _ hp, hb⟩
  offered p hp := by
    rcases List.mem_append.mp hp with hp | hp
    · obtain ⟨u, results, hu, hsettled, hterm⟩ := h.offered p hp
      obtain ⟨i, b, hb, -⟩ := h.exists_address_eq_cons hp
      refine ⟨u, results, ?_, hsettled.mono (List.subset_append_left _ _), hterm⟩
      rw [hb] at hu ⊢
      exact hu
    · obtain rfl := List.mem_singleton.mp hp
      refine ⟨t, results, by rw [ha]; rfl, ?_, hterm, hchildren⟩
      rw [ha]
      exact hsettled.mono (List.subset_append_left _ _)

/-- One more term, behind the others. -/
theorem PostOrder.concat {ts : List Term} {t : Term} (h : PostOrder (Term.among? ts) log)
    (h' : PostOrder t.at? log') :
    PostOrder (Term.among? (ts ++ [t])) (log ++ log'.map (Offer.under ts.length)) where
  sorted := by
    -- behind one another the addresses compare as before, since they share their first number, and
    -- with those of earlier terms they compare by it
    refine List.pairwise_append.mpr ⟨h.sorted, List.pairwise_map.mpr ?_, fun p hp q hq => ?_⟩
    · exact h'.sorted.imp fun hbefore => .inr ⟨rfl, hbefore⟩
    · obtain ⟨q, -, rfl⟩ := List.mem_map.mp hq
      obtain ⟨i, b, hb, hi⟩ := h.exists_address_eq_cons hp
      rw [hb]
      exact .inl hi
  complete b u hu := by
    rcases Term.cases_among?_concat hu with hu | ⟨c, rfl, hc⟩
    · obtain ⟨p, hp, hb⟩ := h.complete b u hu
      exact ⟨p, List.mem_append_left _ hp, hb⟩
    · obtain ⟨p, hp, rfl⟩ := h'.complete c u hc
      exact ⟨p.under ts.length, List.mem_append_right _ (List.mem_map_of_mem hp), rfl⟩
  offered p hp := by
    rcases List.mem_append.mp hp with hp | hp
    · obtain ⟨u, results, hu, hsettled, hterm⟩ := h.offered p hp
      exact ⟨u, results, Term.among?_append_left hu,
        hsettled.mono (List.subset_append_left _ _), hterm⟩
    · obtain ⟨q, hq, rfl⟩ := List.mem_map.mp hp
      obtain ⟨u, results, hu, hsettled, hterm⟩ := h'.offered q hq
      exact ⟨u, results, (Term.among?_concat_length ts t q.address).trans hu,
        (hsettled.under ts.length).mono (List.subset_append_right _ _), hterm⟩

end Offer

namespace Replacer

variable {σ α β : Type}

/-- Writes down every term that is offered, with the answer. -/
def recording (r : Replacer σ) : Replacer (σ × List (Term × Option Term)) where
  onTy t s :=
    let (answer, state) := r.onTy t s.1
    (answer, (state, s.2 ++ [(.ty t, answer.map .ty)]))
  onExpr e s :=
    let (answer, state) := r.onExpr e s.1
    (answer, (state, s.2 ++ [(.expr e, answer.map .expr)]))

theorem onTerm_recording (r : Replacer σ) (t : Term) (state : σ)
    (seen : List (Term × Option Term)) :
    r.recording.onTerm t (state, seen) =
      ((r.onTerm t state).1, ((r.onTerm t state).2, seen ++ [(t, (r.onTerm t state).1)])) := by
  cases t <;> rfl

variable {r : Replacer σ} {s : Tally σ}

/-- A walk makes the offers of a log: the replacer is called for them in order and for nothing else,
it answers as the log says, and the replacements are counted. -/
structure Makes (r : Replacer σ) (walk : ∀ τ : Type, Replacer τ → StateM (Tally τ) α)
    (s : Tally σ) (log : List Offer) : Prop where
  called : ∀ seen, walk _ r.recording ⟨(s.state, seen), s.count⟩ =
    ((walk _ r s).1,
      ⟨((walk _ r s).2.state, seen ++ log.map Offer.call), (walk _ r s).2.count⟩)
  answered : (log.map Offer.term).mapM r.onTerm s.state =
    (log.map Offer.answer, (walk _ r s).2.state)
  count : (walk _ r s).2.count = s.count + log.countP (·.answer.isSome)

variable {walk : ∀ τ : Type, Replacer τ → StateM (Tally τ) α} {log log' : List Offer}

theorem makes_pure (a : α) : r.Makes (fun _ _ => pure a) s [] where
  called seen := by simp [pure_apply]
  answered := rfl
  count := rfl

theorem Makes.bind {next : ∀ τ : Type, Replacer τ → α → StateM (Tally τ) β}
    (h : r.Makes walk s log)
    (h' : r.Makes (fun τ q => next τ q (walk _ r s).1) (walk _ r s).2 log') :
    r.Makes (fun τ q => walk τ q >>= next τ q) s (log ++ log') where
  called seen := by
    simp only [bind_apply, h.called, h'.called, List.map_append, List.append_assoc]
  answered := by
    simp only [List.map_append, mapM_append_apply, h.answered, h'.answered, bind_apply]
  count := by
    simp only [bind_apply, h'.count, h.count, List.countP_append, Nat.add_assoc]

theorem Makes.map (h : r.Makes walk s log) (g : α → β) :
    r.Makes (fun τ q => walk τ q >>= fun a => pure (g a)) s log where
  called seen := by simp only [bind_apply, pure_apply, h.called]
  answered := h.answered
  count := h.count

theorem Makes.under (h : r.Makes walk s log) (i : Nat) :
    r.Makes walk s (log.map (Offer.under i)) where
  called seen := by
    rw [List.map_map]
    exact h.called seen
  answered := by
    rw [List.map_map, List.map_map]
    exact h.answered
  count := by
    rw [List.countP_map]
    exact h.count

theorem makes_offer (t : Term) (s : Tally σ) :
    r.Makes (fun _ q => q.offer t) s [⟨[], t, (r.onTerm t s.state).1⟩] where
  called seen := by simp [offer_eq, onTerm_recording, Offer.call]
  answered := by
    rw [offer_eq]
    rfl
  count := by simp [offer_eq]

/-! ### The offers of a walk -/

/-- The offers of a walk over a term. -/
structure Visits (r : Replacer σ) (t : Term) (s : Tally σ) (log : List Offer) : Prop where
  makes : r.Makes (fun _ q => q.walkTerm t) s log
  order : Offer.PostOrder t.at? log
  root : ∃ o ∈ log, o.address = [] ∧ o.result = (r.walkTerm t s).1

/-- The offers of a walk over several terms. -/
structure VisitsAll (r : Replacer σ) (ts : List Term) (s : Tally σ) (log : List Offer) :
    Prop where
  makes : r.Makes (fun _ q => ts.mapM q.walkTerm) s log
  order : Offer.PostOrder (Term.among? ts) log
  settled : Offer.Settled log [] ts.length (ts.mapM r.walkTerm s).1

theorem visitsAll_nil (s : Tally σ) : r.VisitsAll [] s [] where
  makes := makes_pure []
  order := Offer.PostOrder.nil
  settled := ⟨rfl, nofun⟩

theorem VisitsAll.concat {ts : List Term} {t : Term} (h : r.VisitsAll ts s log)
    (h' : r.Visits t (ts.mapM r.walkTerm s).2 log') :
    r.VisitsAll (ts ++ [t]) s (log ++ log'.map (Offer.under ts.length)) where
  makes := by
    have hwalk : (fun τ (q : Replacer τ) => (ts ++ [t]).mapM q.walkTerm) =
        fun τ q => ts.mapM q.walkTerm >>= fun us => q.walkTerm t >>= fun u => pure (us ++ [u]) := by
      funext τ q
      simp [List.mapM_append]
    rw [hwalk]
    exact h.makes.bind ((h'.makes.under ts.length).map _)
  order := h.order.concat h'.order
  settled := by
    obtain ⟨o, ho, ha, hresult⟩ := h'.root
    rw [mapM_append_apply, mapM_cons_apply, List.length_append, ← hresult]
    exact h.settled.concat ho ha

/-- The induction adds terms at the end of the list, so that the addresses in the terms before them
stay what they are. -/
theorem exists_visitsAll {ts : List Term} (h : ∀ t ∈ ts, ∀ s, ∃ log, r.Visits t s log)
    (s : Tally σ) : ∃ log, r.VisitsAll ts s log := by
  induction ts using List.reverseRecOn with
  | nil => exact ⟨[], visitsAll_nil s⟩
  | append_singleton ts t ih =>
      rw [List.forall_mem_append, List.forall_mem_singleton] at h
      obtain ⟨log, hlog⟩ := ih h.1
      obtain ⟨log', hlog'⟩ := h.2 (ts.mapM r.walkTerm s).2
      exact ⟨_, hlog.concat hlog'⟩

/-- The last offer of a walk over a term is that of the term itself. -/
theorem VisitsAll.visits {t : Term} (h : r.VisitsAll t.children s log) :
    ∃ log, r.Visits t s log := by
  let results := (t.children.mapM r.walkTerm s).1
  let after := (t.children.mapM r.walkTerm s).2
  let last : Offer :=
    ⟨[], t.withChildren results, (r.onTerm (t.withChildren results) after.state).1⟩
  refine ⟨log ++ [last], ?_,
    h.order.concat_root h.settled rfl rfl (r.children_withChildren t s),
    last, List.mem_append_right _ (List.mem_singleton_self _), rfl, ?_⟩
  · have hwalk : (fun τ (q : Replacer τ) => q.walkTerm t) =
        fun τ q => t.children.mapM q.walkTerm >>= fun us => q.offer (t.withChildren us) := by
      funext τ q
      exact q.walkTerm_eq t
    rw [hwalk]
    exact h.makes.bind (makes_offer (t.withChildren results) after)
  · rw [walkTerm_eq, bind_apply, offer_eq]
    rfl

theorem exists_visits (r : Replacer σ) : ∀ t s, ∃ log, r.Visits t s log := by
  refine Term.Rises.all fun t h s => ?_
  obtain ⟨log, hlog⟩ := exists_visitsAll h s
  exact hlog.visits

end Replacer
end ClientLoom
