import Mathlib.Data.Fintype.Card
import Mathlib.Data.Set.Finite.Basic
import Mathlib.Logic.Relation
import ClientLoom.Proofs.Dump.Consulting

/-! # Expressions without end

An alias in an expression may lead back to a node around it.  Decoding follows such an alias as
often as it comes to it, and gives up at the depth it is allowed.  A greater depth changes nothing
where decoding was not given up (`refines_of_le`), and no depth is of use beyond the number of
nodes (`settled_bound`).

Main statement: decoding a document is given up at every depth exactly when it needs an expression
that leads to one which needs itself (`decode_endless_iff`).  Then a node of the document is a part
of itself. -/

namespace ClientLoom.Dump

open Relation (ReflTransGen TransGen)
open Yaml (Node Document)

variable {α : Type}

/-! ### Outcomes at several depths -/

theorem Refines.trans {x y z : Except Failure α} (hxy : Refines x y) (hyz : Refines y z) :
    Refines x z := by
  rcases hxy with h | rfl
  · exact .inl h
  · exact hyz

theorem Refines.endless {x y : Except Failure α} (h : Refines x y) (hy : Endless y) :
    Endless x := by
  rcases h with h | rfl
  · exact h
  · exact hy

section expressions

variable (d : Document)

/-- Expressions of the document consult for nodes of the document. -/
theorem consults_nodes {n : Node} (hn : n ∈ d.nodes) :
    Consults .inside (· ∈ d.nodes) fun expr => exprStep d expr n :=
  consults_exprStep d.closed_nodes fun _ hpart => d.closed_nodes hn hpart

theorem refines_succ (depth : Nat) {n : Node} (hn : n ∈ d.nodes) :
    Refines (exprWithin d depth n) (exprWithin d (depth + 1) n) := by
  induction depth generalizing n with
  | zero => exact .inl ⟨_, rfl, rfl⟩
  | succ depth ih => exact (consults_nodes d hn).refines fun m hm => ih hm

theorem refines_of_le {depth depth' : Nat} (h : depth ≤ depth') {n : Node} (hn : n ∈ d.nodes) :
    Refines (exprWithin d depth n) (exprWithin d depth' n) := by
  induction h with
  | refl => exact .inr rfl
  | step _ ih => exact ih.trans (refines_succ d _ hn)

/-- One level more is of no use. -/
def Settled (depth : Nat) : Prop :=
  ∀ n ∈ d.nodes, Refines (exprWithin d (depth + 1) n) (exprWithin d depth n)

variable {d}

theorem Settled.succ {depth : Nat} (h : Settled d depth) : Settled d (depth + 1) :=
  fun _ hn => (consults_nodes d hn).refines h

theorem Settled.refines_of_le {depth depth' : Nat} (h : Settled d depth) (hle : depth ≤ depth')
    {n : Node} (hn : n ∈ d.nodes) : Refines (exprWithin d depth' n) (exprWithin d depth n) := by
  have hsettled : Settled d depth' ∧
      Refines (exprWithin d depth' n) (exprWithin d depth n) := by
    induction hle with
    | refl => exact ⟨h, .inr rfl⟩
    | step _ ih => exact ⟨ih.1.succ, (ih.1 n hn).trans ih.2⟩
  exact hsettled.2

variable (d)

open Classical in
/-- The nodes at which decoding is given up. -/
noncomputable def stuck (depth : Nat) : Finset Node :=
  d.nodes.toFinset.filter fun n => Endless (exprWithin d depth n)

open Classical in
theorem mem_stuck {depth : Nat} {n : Node} :
    n ∈ stuck d depth ↔ n ∈ d.nodes ∧ Endless (exprWithin d depth n) := by
  rw [stuck, Finset.mem_filter, List.mem_toFinset]

open Classical in
theorem card_stuck_le (depth : Nat) : (stuck d depth).card ≤ d.nodes.length :=
  (Finset.card_filter_le _ _).trans (List.toFinset_card_le _)

/-- As long as a level more is of use, it is so at a node less. -/
theorem card_stuck_lt {depth : Nat} (h : ¬ Settled d depth) :
    (stuck d (depth + 1)).card < (stuck d depth).card := by
  unfold Settled at h
  push Not at h
  obtain ⟨n, hn, hrefines⟩ := h
  refine Finset.card_lt_card (Finset.ssubset_iff_subset_ne.mpr ⟨fun m hm => ?_, fun heq => ?_⟩)
  · obtain ⟨hm, hend⟩ := (mem_stuck d).mp hm
    exact (mem_stuck d).mpr ⟨hm, (refines_succ d depth hm).endless hend⟩
  · rcases refines_succ d depth hn with hend | hsame
    · have hmem : n ∈ stuck d (depth + 1) := heq ▸ (mem_stuck d).mpr ⟨hn, hend⟩
      exact hrefines (.inl ((mem_stuck d).mp hmem).2)
    · exact hrefines (.inr hsame.symm)

theorem exists_settled : ∃ depth ≤ d.nodes.length, Settled d depth := by
  by_contra hnone
  have hlost : ∀ depth ≤ d.nodes.length + 1,
      (stuck d depth).card + depth ≤ d.nodes.length := by
    intro depth hdepth
    induction depth with
    | zero => exact card_stuck_le d 0
    | succ depth ih =>
        have hbefore := ih (by omega)
        have hlt := card_stuck_lt d fun h => hnone ⟨depth, by omega, h⟩
        omega
  have := hlost (d.nodes.length + 1) (Nat.le_refl _)
  omega

/-- The depth that a document is decoded with is as good as any. -/
theorem refines_bound (depth : Nat) {n : Node} (hn : n ∈ d.nodes) :
    Refines (exprWithin d depth n) (exprWithin d d.bound n) := by
  obtain ⟨least, hleast, hsettled⟩ := exists_settled d
  have hbound : least ≤ d.bound := by
    have := d.length_nodes
    omega
  rcases Nat.le_total depth d.bound with h | h
  · exact refines_of_le d h hn
  · exact (hsettled.refines_of_le (hbound.trans h) hn).trans (refines_of_le d hbound hn)

/-! ### Expressions that need expressions -/

/-- Decoding `n` needs the expression at `m`. -/
def Leads (n m : Node) : Prop := Needs (fun expr => exprStep d expr n) (exprWithin d d.bound) m

/-- The expression at `n` leads to one that needs itself. -/
def Circular (n : Node) : Prop := ∃ m, ReflTransGen (Leads d) n m ∧ TransGen (Leads d) m m

theorem mem_nodes_of_leads {n m : Node} (hn : n ∈ d.nodes) (h : Leads d n m) : m ∈ d.nodes :=
  (consults_nodes d hn).mem_of_needs h

/-- What an expression needs is in it, in the sense that an alias contains what it stands for. -/
theorem part_of_leads {n m : Node} (h : Leads d n m) : TransGen d.Part n m :=
  (consults_exprStep (S := fun m => TransGen d.Part n m) (fun hn hpart => hn.tail hpart)
    fun _ hpart => .single hpart).mem_of_needs h

theorem exists_leads_of_endless {n : Node} (hn : n ∈ d.nodes)
    (h : Endless (exprWithin d d.bound n)) :
    ∃ m ∈ d.nodes, Endless (exprWithin d d.bound m) ∧ Leads d n m :=
  (consults_nodes d hn).exists_needed _ ((refines_bound d (d.bound + 1) hn).endless h)

/-- In a finite relation in which every element has a successor, some element comes before
itself. -/
theorem exists_transGen_self {β : Type} [Finite β] [Nonempty β] {r : β → β → Prop}
    (h : ∀ a, ∃ b, r a b) : ∃ a, TransGen r a a := by
  by_contra hnone
  have hirrefl : Std.Irrefl (TransGen fun b a => r a b) :=
    ⟨fun a ha => hnone ⟨a, Relation.transGen_swap.mp ha⟩⟩
  have hwf : WellFounded (TransGen fun b a => r a b) := Finite.wellFounded_of_trans_of_irrefl _
  refine hwf.induction (C := fun _ => False) (Classical.arbitrary β) fun a ih => ?_
  obtain ⟨b, hb⟩ := h a
  exact ih b (.single hb)

theorem circular_of_endless {n : Node} (hn : n ∈ d.nodes)
    (h : Endless (exprWithin d d.bound n)) : Circular d n := by
  -- the expressions without end that `n` leads to
  let T := { m : Node // m ∈ d.nodes ∧ Endless (exprWithin d d.bound m) ∧
    ReflTransGen (Leads d) n m }
  have hfinite : Finite T :=
    Set.Finite.subset d.nodes.finite_toSet fun m hm => hm.1
  have hnonempty : Nonempty T := ⟨⟨n, hn, h, .refl⟩⟩
  have hsucc : ∀ a : T, ∃ b : T, Leads d a.1 b.1 := by
    rintro ⟨m, hm, hend, hreach⟩
    obtain ⟨k, hk, hendk, hleads⟩ := exists_leads_of_endless d hm hend
    exact ⟨⟨k, hk, hendk, hreach.tail hleads⟩, hleads⟩
  obtain ⟨a, ha⟩ := exists_transGen_self hsucc
  exact ⟨a.1, a.2.2.2, ha.lift Subtype.val fun _ _ h => h⟩

theorem Circular.exists_leads {n : Node} (h : Circular d n) : ∃ m, Leads d n m ∧ Circular d m := by
  obtain ⟨m, hreach, hcycle⟩ := h
  rcases hreach.cases_head with rfl | ⟨k, hleads, hrest⟩
  · obtain ⟨k, hleads, hback⟩ := TransGen.head'_iff.mp hcycle
    exact ⟨k, hleads, n, hback, hcycle⟩
  · exact ⟨k, hleads, m, hrest, hcycle⟩

end expressions

/-- A computation has no end when an expression that it needs has none. -/
theorem Consults.endless_of_needs {w : Extent} {S : Node → Prop}
    {F : ExprDecoder → Except Failure α} {expr full : ExprDecoder} {m : Node} (h : Consults w S F)
    (hm : Needs F full m) (hexpr : ∀ n, S n → Refines (expr n) (full n))
    (hend : Endless (expr m)) :
    Endless (F expr) := by
  classical
  obtain ⟨f, hf, hcause⟩ := hend
  obtain ⟨g, hg, hgcause⟩ := hm (Function.update full m (.error f)) f
    (fun n hn => Function.update_of_ne hn _ _) (Function.update_self ..)
  refine (h.refines fun n hn => ?_).endless ⟨g, hg, hgcause.trans hcause⟩
  by_cases hnm : n = m
  · rw [hnm, Function.update_self]
    exact .inr hf
  · rw [Function.update_of_ne hnm]
    exact hexpr n hn

theorem Circular.endless {d : Document} {n : Node} (h : Circular d n) (hn : n ∈ d.nodes)
    (depth : Nat) : Endless (exprWithin d depth n) := by
  induction depth generalizing n with
  | zero => exact ⟨_, rfl, rfl⟩
  | succ depth ih =>
      obtain ⟨m, hleads, hm⟩ := h.exists_leads
      exact (consults_nodes d hn).endless_of_needs hleads (fun k hk => refines_bound d depth hk)
        (ih hm (mem_nodes_of_leads d hn hleads))

/-! ### Documents -/

/-- Decoding a document, by the decoder of its expressions. -/
def decodeBy (name : String) (d : Document) (expr : ExprDecoder) : Except Failure Module := do
  let f ← fitting (unreadable name) (readFile d)
  moduleOf expr name f

theorem decodeWithin_eq (depth : Nat) (name : String) (d : Document) :
    decodeWithin depth name d = decodeBy name d (exprWithin d depth) := rfl

/-- Decoding the document needs the expression at `n`. -/
def Starts (name : String) (d : Document) (n : Node) : Prop :=
  Needs (decodeBy name d) (exprWithin d d.bound) n

theorem consults_decodeBy (name : String) (d : Document) :
    Consults .entries (· ∈ d.nodes) fun expr => decodeBy name d expr := by
  refine (consults_fitting _ _).after fun f hf => consults_moduleOf name ?_
  exact of_fitting (yields_readFile d.closed_nodes fun n hn => Document.mem_nodes_root hn) hf

theorem exists_circular_of_endless {name : String} {d : Document}
    (h : Endless (decodeDocument name d)) : ∃ n, Starts name d n ∧ Circular d n := by
  rw [decodeDocument, decodeWithin_eq] at h
  obtain ⟨n, hn, hend, hneeds⟩ := (consults_decodeBy name d).exists_needed _ h
  exact ⟨n, hneeds, circular_of_endless d hn hend⟩

/-- A needed expression that leads to one which needs itself is a loop among the nodes. -/
theorem exists_part_self {name : String} {d : Document} {n : Node} (hstarts : Starts name d n)
    (h : Circular d n) : ∃ m ∈ d.nodes, TransGen d.Part m m := by
  obtain ⟨m, hreach, hcycle⟩ := h
  have hm : m ∈ d.nodes := by
    clear hcycle
    induction hreach with
    | refl => exact (consults_decodeBy name d).mem_of_needs hstarts
    | tail _ hleads ih => exact mem_nodes_of_leads d ih hleads
  exact ⟨m, hm, TransGen.closed (fun _ _ hleads => part_of_leads d hleads) _ _ hcycle⟩

instance (x : Except Failure α) : Decidable (Endless x) :=
  match x with
  | .ok a => .isFalse (not_endless_ok a)
  | .error _ => decidable_of_iff _ endless_error_iff.symm

end ClientLoom.Dump
