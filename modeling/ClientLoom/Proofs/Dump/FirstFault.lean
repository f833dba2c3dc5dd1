import ClientLoom.Proofs.Dump.Endless
import ClientLoom.Proofs.Dump.Kinds
import ClientLoom.Proofs.Dump.Sharing

/-! # The first fault

Entries are decoded and taken into the module in their order, so the first one that is at fault
decides the failure, and it names that entry.  An entry is at fault when it cannot be decoded by
itself, or when an earlier one declares a type of its name that is of another kind (`AtFault`).

Main statement: a failure that a document without loops comes back with is about the schema, about a
nested module or about a clash of kinds; it names the first entry at fault and tells by its cause
what the fault is; and it stays the same whatever comes after that entry (`decode_eq_error`). -/

namespace ClientLoom.Dump

open Relation (TransGen)
open Yaml (Node Document)
open ClientLoom.Module (Makes)

variable {expr : ExprDecoder} {place name text : String} {m m' : Module} {e : DeclDoc}
  {es : List DeclDoc} {i : Nat} {g : Failure}

/-! ### Faults of entries -/

/-- The entry cannot be decoded. -/
def Undecodable (expr : ExprDecoder) (e : DeclDoc) : Prop := ∀ x, declOf expr e ≠ .ok x

/-- The entries declare types of one name and of different kinds. -/
def Clash (expr : ExprDecoder) (e e' : DeclDoc) : Prop :=
  ∃ x x' t, declOf expr e = .ok x ∧ declOf expr e' = .ok x' ∧
    x.typeName? = some t ∧ x'.typeName? = some t ∧ x.kind ≠ x'.kind

/-- The entry is at fault after the entries `before`: it cannot be decoded, or it has a clash with
one of them. -/
def AtFault (expr : ExprDecoder) (before : List DeclDoc) (e : DeclDoc) : Prop :=
  Undecodable expr e ∨ ∃ e' ∈ before, Clash expr e e'

/-- Entry number `i` is `e`, and the first of the entries that is at fault. -/
structure FirstFault (expr : ExprDecoder) (es : List DeclDoc) (i : Nat) (e : DeclDoc) : Prop where
  entry : es[i]? = some e
  fault : AtFault expr (es.take i) e
  first : ∀ j < i, ∀ e', es[j]? = some e' → ¬ AtFault expr (es.take j) e'

/-! ### One entry after another -/

theorem addDecls_append (before after : List DeclDoc) :
    addDecls expr place m i (before ++ after) =
      addDecls expr place m i before >>= fun m' =>
        addDecls expr place m' (i + before.length) after := by
  induction before generalizing m i with
  | nil => rfl
  | cons e before ih =>
      rw [List.cons_append, addDecls, addDecls, bind_assoc]
      simp only [ih, List.length_cons, Nat.add_assoc, Nat.add_comm 1]

/-- A failure comes from one entry, and the entries before it were taken in. -/
theorem exists_entry_of_addDecls (h : addDecls expr place m i es = .error g) :
    ∃ before e after m' f, es = before ++ e :: after ∧ addDecls expr place m i before = .ok m' ∧
      addDecl expr m' e = .error f ∧
      g = f.within (place ++ ": decls[" ++ toString (i + before.length) ++ "]") := by
  induction es generalizing m i with
  | nil => cases h
  | cons e es ih =>
      rw [addDecls] at h
      cases he : addDecl expr m e with
      | error f =>
          rw [he] at h
          exact ⟨[], e, es, m, f, rfl, rfl, he, (Except.error.inj h).symm⟩
      | ok m₁ =>
          rw [he] at h
          obtain ⟨before, e', after, m', f, rfl, hbefore, he', rfl⟩ := ih h
          refine ⟨e :: before, e', after, m', f, rfl, ?_, he', ?_⟩
          · rw [addDecls, he]
            exact hbefore
          · rw [List.length_cons, Nat.add_right_comm, Nat.add_assoc]

/-- Entries that are taken in are not at fault. -/
theorem not_atFault_of_addDecls (hm : m.decls = []) (h : addDecls expr place m i es = .ok m')
    {j : Nat} (he : es[j]? = some e) : ¬ AtFault expr (es.take j) e := by
  obtain ⟨items, ds, hitems, hds, -⟩ := Module.addDecls_eq_ok_iff.mp h
  have hall := mapM_eq_ok_iff.mp hitems
  rw [hm] at hds
  have hagree : Module.KindsAgree items := Module.exists_makes_iff.mp ⟨ds, hds⟩
  rintro (hundecodable | ⟨e', he', x, x', t, hx, hx', ht, ht', hkind⟩)
  · obtain ⟨x, -, hx⟩ := exists_right_of_forall₂ hall (List.mem_of_getElem? he)
    exact hundecodable x hx
  · have hmem : ∀ e y, e ∈ es → declOf expr e = .ok y → y ∈ items := by
      intro e y he hy
      obtain ⟨y', hy', hdecl⟩ := exists_right_of_forall₂ hall he
      rwa [Except.ok.inj (hy.symm.trans hdecl)]
    refine hkind (Module.kindsAgree_iff.mp hagree t _ ?_ _ ?_)
    · exact Module.mem_kindsOf.mpr ⟨x, hmem e x (List.mem_of_getElem? he) hx, ht, rfl⟩
    · exact Module.mem_kindsOf.mpr ⟨x', hmem e' x' (List.mem_of_mem_take he') hx', ht', rfl⟩

/-- The entry after those that were taken in is the first that can be at fault. -/
theorem firstFault_of_addDecls {before after : List DeclDoc} (hm : m.decls = [])
    (h : addDecls expr place m i before = .ok m') (he : AtFault expr before e) :
    FirstFault expr (before ++ e :: after) before.length e where
  entry := by rw [List.getElem?_append_right le_rfl, Nat.sub_self, List.getElem?_cons_zero]
  fault := by rwa [List.take_left]
  first j hj e' he' := by
    rw [List.getElem?_append_left hj] at he'
    rw [List.take_append_of_le_length hj.le]
    exact not_atFault_of_addDecls hm h he'

/-- A decoded entry that is refused has a clash with one that was taken in. -/
theorem exists_clash_of_push (hm : m.decls = []) (h : addDecls expr place m i es = .ok m')
    {x : Decl} (hx : declOf expr e = .ok x) {f : Failure} (hpush : (m'.push x).2 = .error f) :
    ∃ e' ∈ es, Clash expr e e' := by
  obtain ⟨items, ds, hitems, hds, rfl⟩ := Module.addDecls_eq_ok_iff.mp h
  rw [hm] at hds
  have hmakes : Makes items ds := hds
  have hrefused : ¬ ∃ ds', Module.pushDecl ds x = (ds', .ok ()) := by
    rintro ⟨ds', hds'⟩
    rw [Module.push_eq_ok_iff.mpr ⟨ds', hds', rfl⟩] at hpush
    cases hpush
  rw [Module.exists_pushDecl_iff] at hrefused
  push Not at hrefused
  obtain ⟨t, ht, k, hk, hkind⟩ := hrefused
  have hmem := hmakes.mem_kindsOf_iff.mp (List.mem_of_mem_head? hk)
  obtain ⟨x', hx', ht', rfl⟩ := Module.mem_kindsOf.mp hmem
  obtain ⟨e', he', hdecl⟩ := exists_of_mem_mapM hitems hx'
  exact ⟨e', he', x, x', t, hx, hdecl, ht, ht', hkind.symm⟩

/-- Whatever comes after the first entry at fault, the failure is the same. -/
theorem addDecls_of_failed {before : List DeclDoc} {f : Failure}
    (hbefore : addDecls expr place m i before = .ok m') (he : addDecl expr m' e = .error f)
    (rest : List DeclDoc) :
    addDecls expr place m i (before ++ e :: rest) =
      .error (f.within (place ++ ": decls[" ++ toString (i + before.length) ++ "]")) := by
  rw [addDecls_append, hbefore]
  show addDecls expr place m' (i + before.length) (e :: rest) = _
  rw [addDecls, he]
  rfl

/-! ### Causes -/

theorem Fault.entries {c : Cause} (h : Fault .inside c) : Fault .entries c := by
  cases h with
  | malformed => exact .malformed
  | breakdown text => exact .breakdown text

theorem declOf_of_mod (expr : ExprDecoder) (hmod : e.mod ≠ "") :
    ∃ f, declOf expr e = .error f ∧ f.cause = .unsupported :=
  ⟨_, if_pos hmod, rfl⟩

/-- What an expression fails with is a fault inside an entry, unless it has no end. -/
theorem cause_of_exprWithin (d : Document) (depth : Nat) {n : Node} {f : Failure}
    (h : exprWithin d depth n = .error f) : Fault .inside f.cause ∨ f.cause = .endless := by
  induction depth generalizing n f with
  | zero =>
      obtain rfl := Except.error.inj h
      exact .inr rfl
  | succ depth ih =>
      have hconsults : Consults .inside (fun _ => True) fun expr => exprStep d expr n :=
        consults_exprStep (fun _ _ => trivial) fun _ _ => trivial
      exact hconsults.fault_or_endless (fun m _ f hf => ih hf) h

theorem DeclDoc.within_true (e : DeclDoc) : e.Within fun _ => True where
  body _ _ _ _ :=
    ⟨fun _ _ _ _ => trivial, fun _ _ => trivial, fun _ _ => trivial⟩
  fns _ _ _ _ _ _ := ⟨fun _ _ _ _ => trivial, fun _ _ => trivial, fun _ _ => trivial⟩

/-- An entry that is no nested module fails with a fault inside it. -/
theorem cause_of_declOf (d : Document) (depth : Nat) (hmod : e.mod = "") {f : Failure}
    (h : declOf (exprWithin d depth) e = .error f) :
    Fault .inside f.cause ∨ f.cause = .endless :=
  (consults_declOf_of_mod e.within_true hmod).fault_or_endless
    (fun _ _ _ hf => cause_of_exprWithin d depth hf) h

/-- How the cause of a failure tells what the fault of the entry is. -/
theorem cause_of_addDecl (d : Document) (depth : Nat) (hm : m.decls = [])
    (h : addDecls (exprWithin d depth) place m i es = .ok m') {f : Failure}
    (he : addDecl (exprWithin d depth) m' e = .error f) :
    AtFault (exprWithin d depth) es e ∧
      (f.cause = .kindClash ↔ ∃ e' ∈ es, Clash (exprWithin d depth) e e') ∧
      (f.cause = .unsupported ↔ e.mod ≠ "") := by
  cases hdecl : declOf (exprWithin d depth) e with
  | error f' =>
      have hf : f' = f := by
        rw [addDecl, hdecl] at he
        exact Except.error.inj he
      subst hf
      have hundecodable : Undecodable (exprWithin d depth) e := by
        intro x hx
        cases hdecl.symm.trans hx
      have hnoClash : ¬ ∃ e' ∈ es, Clash (exprWithin d depth) e e' := by
        rintro ⟨e', -, x, -, -, hx, -⟩
        exact hundecodable x hx
      by_cases hmod : e.mod = ""
      · have hcause := cause_of_declOf d depth hmod hdecl
        refine ⟨.inl hundecodable, iff_of_false ?_ hnoClash, iff_of_false ?_ (not_not.mpr hmod)⟩
        all_goals
          intro hc
          rw [hc] at hcause
          rcases hcause with hfault | hend
          · cases hfault
          · cases hend
      · obtain ⟨f'', hf'', hcause⟩ := declOf_of_mod (exprWithin d depth) hmod
        obtain rfl := Except.error.inj (hf''.symm.trans hdecl)
        refine ⟨.inl hundecodable, iff_of_false ?_ hnoClash, iff_of_true hcause hmod⟩
        rw [hcause]
        decide
  | ok x =>
      have hpush : (m'.push x).2 = .error f := by
        rw [addDecl, hdecl] at he
        exact settled_eq_error_iff.mp he
      have hclash := exists_clash_of_push hm h hdecl hpush
      have hcause := (Module.eq_of_push_eq_error (Prod.ext rfl hpush)).2
      refine ⟨.inr hclash, iff_of_true hcause hclash, iff_of_false ?_ ?_⟩
      · rw [hcause]
        decide
      · exact not_not.mpr (kind_of_declOf hdecl).1

/-! ### Documents -/

/-- No node of the document is inside itself. -/
def Acyclic (d : Document) : Prop := ∀ n ∈ d.nodes, ¬ TransGen d.Part n n

/-- Decoding the entries meets the same nodes in both documents: the nodes they hold are in a set
that has the parts of its nodes and in which aliases stand for the same nodes. -/
def SameNodes (d d' : Document) (es : List DeclDoc) : Prop :=
  ∃ S : Node → Prop, d.Closed S ∧ (∀ e ∈ es, e.Within S) ∧
    ∀ line name target, S (.alias line name target) → d'.anchors[target]? = d.anchors[target]?

variable {d d' : Document} {f : FileDoc} {attrs : List Attr}

theorem decode_of_parse (hd : Document.parse? text = some d) :
    decode name text = decodeDocument name d := by
  unfold decode
  rw [hd]

theorem decodeDocument_of_readFile (hf : (readFile d).result = .ok f) :
    decodeDocument name d = moduleOf (exprWithin d d.bound) name f := by
  unfold decodeDocument decodeWithin
  rw [fitting_eq_ok_iff.mpr hf]
  rfl

/-- The module before any entry is taken in. -/
def blankModule (name : String) (f : FileDoc) (attrs : List Attr) : Module :=
  { name := if f.module = "" then SlashPath.stem name else f.module
    origin := name
    attrs := attrs }

theorem moduleOf_of_attrs (hattrs : attrsOf f.attrs = .ok attrs) :
    moduleOf expr name f =
      addDecls expr ("decode " ++ name) (blankModule name f attrs) 0 f.decls := by
  unfold moduleOf
  rw [hattrs]
  rfl

theorem within_nodes_of_readFile (hf : (readFile d).result = .ok f) : f.Within (· ∈ d.nodes) :=
  of_fitting (yields_readFile d.closed_nodes fun _ hn => Document.mem_nodes_root hn)
    (fitting_eq_ok_iff.mpr hf : fitting (unreadable "") (readFile d) = .ok f)

theorem Acyclic.cause_ne_endless (h : Acyclic d) (hg : decodeDocument name d = .error g) :
    g.cause ≠ .endless := by
  intro hend
  obtain ⟨n, hstarts, hcircular⟩ := exists_circular_of_endless ⟨g, hg, hend⟩
  obtain ⟨m, hm, hcycle⟩ := exists_part_self hstarts hcircular
  exact h m hm hcycle

/-- Whatever decoding a document fails with is a fault of a document, unless it has no end. -/
theorem fault_of_decodeDocument (h : decodeDocument name d = .error g)
    (hend : g.cause ≠ .endless) : Fault .entries g.cause := by
  have hcause : Fault .entries g.cause ∨ g.cause = .endless :=
    (consults_decodeBy name d).fault_or_endless
      (fun n _ f hf => (cause_of_exprWithin d d.bound hf).imp_left Fault.entries) h
  exact hcause.resolve_right hend

/-- Entries with the same nodes in both documents are taken in alike, unless they have no end. -/
theorem addDecls_eq_of_sameNodes (hsame : SameNodes d d' es)
    (hd : ∀ e ∈ es, e.Within (· ∈ d.nodes)) (hd' : ∀ e ∈ es, e.Within (· ∈ d'.nodes))
    (hend : ¬ Endless (addDecls (exprWithin d d.bound) place m i es)) :
    addDecls (exprWithin d' d'.bound) place m i es =
      addDecls (exprWithin d d.bound) place m i es := by
  obtain ⟨S, hclosed, hwithin, hanchors⟩ := hsame
  have hshares : d.Shares d' fun n => (S n ∧ n ∈ d.nodes) ∧ n ∈ d'.nodes := by
    refine ⟨fun hn hpart => ⟨⟨hclosed hn.1.1 hpart, d.closed_nodes hn.1.2 hpart⟩, ?_⟩,
      fun n hn => ⟨hn.1.2, hn.2⟩, fun line name target hn => hanchors line name target hn.1.1⟩
    cases hpart with
    | item h => exact d'.closed_nodes hn.2 (.item h)
    | key h => exact d'.closed_nodes hn.2 (.key h)
    | value h => exact d'.closed_nodes hn.2 (.value h)
    | target h => exact d'.closed_nodes hn.2 (.target ((hanchors _ _ _ hn.1.1).trans h))
  have hconsults := consults_addDecls place m i fun e he =>
    ((hwithin e he).and (hd e he)).and (hd' e he)
  refine ((hconsults.refines fun n hn => ?_).resolve_left hend).symm
  rw [← exprWithin_eq_of_shares hshares d.bound hn]
  exact refines_bound d' d.bound hn.2

/-- Entries that fail in one document fail alike in another that starts with them, where they have
the same nodes. -/
theorem decodeDocument_of_sameNodes {rest rest' : List DeclDoc}
    (hf : (readFile d).result = .ok { f with decls := es ++ rest })
    (hf' : (readFile d').result = .ok { f with decls := es ++ rest' })
    (hfailed : addDecls (exprWithin d d.bound) ("decode " ++ name) (blankModule name f attrs) 0 es =
      .error g)
    (hattrs : attrsOf f.attrs = .ok attrs) (hend : g.cause ≠ .endless) (hsame : SameNodes d d' es) :
    decodeDocument name d' = .error g := by
  have hwithin : ∀ e ∈ es, e.Within (· ∈ d.nodes) := fun e he =>
    within_nodes_of_readFile hf e (List.mem_append_left rest he)
  have hwithin' : ∀ e ∈ es, e.Within (· ∈ d'.nodes) := fun e he =>
    within_nodes_of_readFile hf' e (List.mem_append_left rest' he)
  have hfailed' := addDecls_eq_of_sameNodes hsame hwithin hwithin' fun hendless => by
    rw [hfailed] at hendless
    exact hend (endless_error_iff.mp hendless)
  have hattrs' : attrsOf ({ f with decls := es ++ rest' } : FileDoc).attrs = .ok attrs := hattrs
  rw [decodeDocument_of_readFile hf', moduleOf_of_attrs hattrs', addDecls_append]
  show (addDecls (exprWithin d' d'.bound) ("decode " ++ name) (blankModule name f attrs) 0 es >>=
    _) = _
  rw [hfailed', hfailed]
  rfl

/-- What a failure says of a document without loops that has the shape of the schema and valid
attributes. -/
theorem exists_firstFault (h : decodeDocument name d = .error g)
    (hcame : ∀ what, g.cause ≠ .breakdown what) (hend : g.cause ≠ .endless)
    (hf : (readFile d).result = .ok f) (hattrs : attrsOf f.attrs = .ok attrs) :
    ∃ i e, FirstFault (exprWithin d d.bound) f.decls i e ∧
      g.trail.head? = some ("decode " ++ name ++ ": decls[" ++ toString i ++ "]") ∧
      (g.cause = .kindClash ↔ ∃ e' ∈ f.decls.take i, Clash (exprWithin d d.bound) e e') ∧
      (g.cause = .unsupported ↔ e.mod ≠ "") ∧
      ∀ d' rest, (readFile d').result = .ok { f with decls := f.decls.take (i + 1) ++ rest } →
        SameNodes d d' (f.decls.take (i + 1)) → decodeDocument name d' = .error g := by
  rw [decodeDocument_of_readFile hf, moduleOf_of_attrs hattrs] at h
  obtain ⟨before, e, after, m', fault, hdecls, hbefore, he, hg⟩ := exists_entry_of_addDecls h
  rw [Nat.zero_add] at hg
  have hcause : g.cause = fault.cause := by rw [hg, Failure.within_cause]
  have htake : f.decls.take before.length = before := by rw [hdecls, List.take_left]
  obtain ⟨hfault, hclash, hmod⟩ := cause_of_addDecl d d.bound rfl hbefore he
  refine ⟨before.length, e, ?_, ?_, ?_, ?_, fun d' rest hf' hsame => ?_⟩
  · rw [hdecls]
    exact firstFault_of_addDecls rfl hbefore hfault
  · rw [hg, Failure.within]
    split
    · next what hwhat => exact absurd (hcause.trans hwhat) (hcame what)
    · rfl
  · rw [hcause, htake]
    exact hclash
  · rw [hcause]
    exact hmod
  · have hfirsts : f.decls.take (before.length + 1) = before ++ [e] := by
      rw [hdecls, List.append_cons, List.take_left' (by simp)]
    have hfailed : addDecls (exprWithin d d.bound) ("decode " ++ name) (blankModule name f attrs) 0
        (f.decls.take (before.length + 1)) = .error g := by
      rw [hfirsts, addDecls_of_failed hbefore he, hg, Nat.zero_add]
    have hf₀ : (readFile d).result = .ok
        { f with
          decls := f.decls.take (before.length + 1) ++ f.decls.drop (before.length + 1) } := by
      rw [List.take_append_drop]
      exact hf
    exact decodeDocument_of_sameNodes hf₀ hf' hfailed hattrs hend hsame

/-- What decoding fails with, of a document without loops and when the program comes back: it is
about the schema, about a nested module or about a clash of kinds.  Once the document has the shape
of the schema and valid attributes, the failure names the first entry at fault, it is about a clash
of kinds exactly when that entry has one and about a nested module exactly when that entry is one,
and it is the same whatever entries come after that one. -/
theorem decode_eq_error (h : decode name text = .error g)
    (hcame : ∀ what, g.cause ≠ .breakdown what)
    (hacyclic : ∀ d, Document.parse? text = some d → Acyclic d) :
    (g.cause = .malformed ∨ g.cause = .unsupported ∨ g.cause = .kindClash) ∧
      ∀ d f attrs, Document.parse? text = some d → (readFile d).result = .ok f →
        attrsOf f.attrs = .ok attrs →
        ∃ i e, FirstFault (exprWithin d d.bound) f.decls i e ∧
          g.trail.head? = some ("decode " ++ name ++ ": decls[" ++ toString i ++ "]") ∧
          (g.cause = .kindClash ↔ ∃ e' ∈ f.decls.take i, Clash (exprWithin d d.bound) e e') ∧
          (g.cause = .unsupported ↔ e.mod ≠ "") ∧
          ∀ text' d' rest, Document.parse? text' = some d' →
            (readFile d').result = .ok { f with decls := f.decls.take (i + 1) ++ rest } →
            SameNodes d d' (f.decls.take (i + 1)) → decode name text' = .error g := by
  constructor
  · cases hd : Document.parse? text with
    | none =>
        unfold decode at h
        rw [hd] at h
        obtain rfl := Except.error.inj h
        exact .inl rfl
    | some d =>
        rw [decode_of_parse hd] at h
        have hfault := fault_of_decodeDocument h ((hacyclic d hd).cause_ne_endless h)
        generalize g.cause = c at hfault hcame
        cases hfault with
        | malformed => exact .inl rfl
        | breakdown what => exact absurd rfl (hcame what)
        | unsupported => exact .inr (.inl rfl)
        | kindClash => exact .inr (.inr rfl)
  · intro d f attrs hd hf hattrs
    rw [decode_of_parse hd] at h
    obtain ⟨i, e, hfirst, htrail, hclash, hmod, hlocal⟩ :=
      exists_firstFault h hcame ((hacyclic d hd).cause_ne_endless h) hf hattrs
    refine ⟨i, e, hfirst, htrail, hclash, hmod, fun text' d' rest hd' hf' hsame => ?_⟩
    rw [decode_of_parse hd']
    exact hlocal d' rest hf' hsame

/-! ### A clash -/

/-- Without anchors a part is smaller than what it is a part of. -/
theorem size_lt_of_part (hd : d.anchors = []) {n k : Node} (h : d.Part n k) : k.size < n.size := by
  cases h with
  | item h => exact Node.size_lt_of_mem_items h
  | key h => exact (Node.size_lt_of_mem_entries h).1
  | value h => exact (Node.size_lt_of_mem_entries h).2
  | target h => simp [hd] at h

theorem acyclic_of_anchors_eq_nil (hd : d.anchors = []) : Acyclic d := by
  intro n _ hcycle
  have hsize : ∀ k, TransGen d.Part n k → k.size < n.size := by
    intro k hk
    induction hk with
    | single h => exact size_lt_of_part hd h
    | tail _ h ih => exact (size_lt_of_part hd h).trans ih
  exact (hsize n hcycle).false

theorem sameNodes_of_anchors_eq_nil (hd : d.anchors = []) (hd' : d'.anchors = []) :
    SameNodes d d' es :=
  ⟨fun _ => True, fun _ _ => trivial, fun e _ => e.within_true, fun _ _ _ _ => by rw [hd, hd']⟩

/-- The texts and flags of an entry. -/
def DeclDoc.words (e : DeclDoc) : List String × List Bool :=
  (e.use :: e.struct :: e.enum :: e.impl :: e.fn :: e.verbatim :: e.mod :: e.asName :: e.trait ::
    e.receiver :: e.returns :: e.attrs, [e.pub, e.glob, e.isAsync])

/-- Whether an entry has nothing but texts and flags. -/
def DeclDoc.isBare (e : DeclDoc) : Bool :=
  e.fields.isEmpty && e.variants.isEmpty && e.fns.isEmpty && e.params.isEmpty && e.body.isNone

theorem DeclDoc.eq_of_words {e e' : DeclDoc} (he : e.isBare = true) (he' : e'.isBare = true)
    (hwords : e.words = e'.words) : e = e' := by
  cases e
  cases e'
  simp_all [isBare, words]

theorem DeclDoc.eq_of_map_words {es es' : List DeclDoc} (hes : ∀ e ∈ es, e.isBare = true)
    (hes' : ∀ e ∈ es', e.isBare = true) (hwords : es.map DeclDoc.words = es'.map DeclDoc.words) :
    es = es' := by
  induction es generalizing es' with
  | nil => exact (List.map_eq_nil_iff.mp hwords.symm).symm
  | cons e es ih =>
      cases es' with
      | nil => cases hwords
      | cons e' es' =>
          obtain ⟨hbare, hes⟩ := List.forall_mem_cons.mp hes
          obtain ⟨hbare', hes'⟩ := List.forall_mem_cons.mp hes'
          obtain ⟨hsame, hrest⟩ := List.cons.inj hwords
          rw [eq_of_words hbare hbare' hsame, ih hes hes' hrest]

/-- A struct, an enum of its name, and another struct. -/
def clashing : String := "decls: [{struct: Pet}, {enum: Pet}, {struct: Dog}]"

/-- The same with a nested module at the end. -/
def clashingElse : String := "decls: [{struct: Pet}, {enum: Pet}, {mod: dogs}]"

/-- Whether a document without anchors is refused for a clash in its second entry. -/
def refusesSecond (d : Document) : Bool :=
  d.anchors.isEmpty &&
    match decodeDocument "m.yaml" d with
    | .ok _ => false
    | .error g => g.cause = .kindClash && g.trail.head? = some "decode m.yaml: decls[1]"

/-- Whether two documents of three entries are the same but for the third, where only the second
document has a nested module; the entries before are bare. -/
def differInThird (f f' : FileDoc) : Bool :=
  f.module = f'.module && f.attrs = [] && f'.attrs = [] && f.decls.length = 3 &&
    (f.decls.take 2).map DeclDoc.words = (f'.decls.take 2).map DeclDoc.words &&
    (f.decls.take 2).all DeclDoc.isBare && (f'.decls.take 2).all DeclDoc.isBare &&
    f.decls.all (·.mod = "") && f'.decls.any (·.mod ≠ "")

theorem exists_clashing :
    ∃ d d' f f', Document.parse? clashing = some d ∧ Document.parse? clashingElse = some d' ∧
      (readFile d).result = .ok f ∧ (readFile d').result = .ok f' ∧ d'.anchors = [] ∧
      refusesSecond d = true ∧ differInThird f f' = true := by
  have hcheck : (Document.parse? clashing).any (fun d => refusesSecond d &&
      (Document.parse? clashingElse).any fun d' => d'.anchors.isEmpty &&
        (readFile d).result.toOption.any fun f => (readFile d').result.toOption.any fun f' =>
          differInThird f f') = true := by decide +kernel
  simp only [Option.any_eq_true, Bool.and_eq_true, toOption_eq_some_iff, List.isEmpty_iff] at hcheck
  obtain ⟨d, hd, hrefuses, d', hd', hanchors, f, hf, f', hf', hdiffer⟩ := hcheck
  exact ⟨d, d', f, f', hd, hd', hf, hf', hanchors, hrefuses, hdiffer⟩

theorem decode_eq_error_clashing :
    ∃ d d' f f' g, Document.parse? clashing = some d ∧ Document.parse? clashingElse = some d' ∧
      (readFile d).result = .ok f ∧ (readFile d').result = .ok f' ∧ f'.decls ≠ f.decls ∧
      g.cause = .kindClash ∧ (∃ e, FirstFault (exprWithin d d.bound) f.decls 1 e) ∧
      decode "m.yaml" clashing = .error g ∧ decode "m.yaml" clashingElse = .error g := by
  obtain ⟨d, d', f, f', hd, hd', hf, hf', hanchors', hrefuses, hdiffer⟩ := exists_clashing
  simp only [differInThird, Bool.and_eq_true, decide_eq_true_eq] at hdiffer
  obtain ⟨⟨⟨⟨⟨⟨⟨⟨hmodule, hattrs⟩, hattrs'⟩, hlength⟩, hwords⟩, hbare⟩, hbare'⟩, hmod⟩, hmod'⟩ :=
    hdiffer
  have htwo : f.decls.take 2 = f'.decls.take 2 :=
    DeclDoc.eq_of_map_words (List.all_eq_true.mp hbare) (List.all_eq_true.mp hbare') hwords
  have hdocs : f' = { f with decls := f.decls.take 2 ++ f'.decls.drop 2 } := by
    rw [htwo, List.take_append_drop, hmodule, hattrs, ← hattrs']
  have hother : f'.decls ≠ f.decls := by
    intro heq
    obtain ⟨e, he, hnested⟩ := List.any_eq_true.mp hmod'
    exact of_decide_eq_true hnested (of_decide_eq_true (List.all_eq_true.mp hmod e (heq ▸ he)))
  obtain ⟨hanchors, hrefused⟩ := (Bool.and_eq_true _ _).mp hrefuses
  rw [List.isEmpty_iff] at hanchors
  cases hg : decodeDocument "m.yaml" d with
  | ok m =>
      rw [hg] at hrefused
      cases hrefused
  | error g =>
      simp only [hg, Bool.and_eq_true, decide_eq_true_eq] at hrefused
      obtain ⟨hcause, hplace⟩ := hrefused
      have hfailed : decode "m.yaml" clashing = .error g := by rw [decode_of_parse hd, hg]
      have hacyclic : ∀ d, Document.parse? clashing = some d → Acyclic d := fun x hx =>
        acyclic_of_anchors_eq_nil (Option.some.inj (hd.symm.trans hx) ▸ hanchors)
      have hcame : ∀ what, g.cause ≠ .breakdown what := by
        rw [hcause]
        exact fun _ h => nomatch h
      obtain ⟨i, e, hfirst, htrail, -, -, hlocal⟩ :=
        (decode_eq_error hfailed hcame hacyclic).2 d f [] hd hf (by rw [hattrs]; rfl)
      have hi : i < 3 := hlength ▸ (List.getElem?_eq_some_iff.mp hfirst.entry).1
      rw [hplace] at htrail
      obtain rfl : i = 1 := by
        obtain rfl | rfl | rfl : i = 0 ∨ i = 1 ∨ i = 2 := by omega
        · exact absurd htrail (by decide)
        · rfl
        · exact absurd htrail (by decide)
      exact ⟨d, d', f, f', g, hd, hd', hf, hf', hother, hcause, ⟨e, hfirst⟩, hfailed,
        hlocal clashingElse d' (f'.decls.drop 2) hd' (hdocs ▸ hf')
          (sameNodes_of_anchors_eq_nil hanchors hanchors')⟩

end ClientLoom.Dump
