import Mathlib.Data.Set.Insert
import ClientLoom.Proofs.Yaml.Flawless

/-! # The entries that a record is filled from

A mapping has its own entries and those that its merge key brings, which may bring further ones.
`Document.entries` lists them in the order in which they count: of the entries with one name, the
first.

What a record is read from no longer speaks of merges: without a flaw it is filled from the entries
of its mapping, part by part (`Shape.fills_of_read`), where a strict shape knows every name
(`Shape.Fills.named_of_strict`) and the first entry of a name makes its part
(`Shape.Fills.exists_part`). -/

namespace ClientLoom.Yaml

variable {α β : Type}

/-! ### Names and entries -/

namespace Document

variable (d : Document)

/-- The name that a key is. -/
def name? (k : Node) : Option String := (d.text? k).join

/-- The names of entries. -/
def names (es : List (Node × Node)) : Set String := {name | ∃ e ∈ es, d.name? e.1 = some name}

/-- The texts among keys. -/
def keyNames (es : List (Node × Node)) : Set String :=
  {name | ∃ e ∈ es, (d.resolve e.1).key? = some (.text name)}

/-- The nodes whose entries the last merge key asks for. -/
def mergedNodes (es : List (Node × Node)) : List Node :=
  match (es.filter (·.1.isMerge)).getLast? with
  | none => []
  | some e => Fit.mergeSources e.2

/-- Whether an entry stands for itself in the mapping it is written in. -/
def isOwn (e : Node × Node) : Bool := !e.1.isMerge

/-- Whether an entry can be brought to another mapping: that one has a merge key, so no other key
of its name is missing there. -/
def isBrought (e : Node × Node) : Bool := d.name? e.1 ≠ some Node.mergeMark

/-- The entries that a node contributes, `keep` telling which of those that are written in it.  The
number bounds the nesting of merges. -/
def gathered : Nat → (Node × Node → Bool) → Node → List (Node × Node)
  | fuel + 1, keep, .mapping _ _ es =>
      es.filter keep ++
        (mergedNodes es).flatMap fun n => gathered fuel d.isBrought (d.resolve n)
  | _, _, _ => []

/-- The entries that nodes contribute to a mapping whose merge key asks for them. -/
def brought (fuel : Nat) (ns : List Node) : List (Node × Node) :=
  ns.flatMap fun n => d.gathered fuel d.isBrought (d.resolve n)

/-- The entries of a mapping, and those that merges bring to it, in the order in which they
count. -/
def entries (n : Node) : List (Node × Node) := d.gathered d.depth isOwn (d.resolve n)

/-- The value that a mapping has for a name. -/
def value? (n : Node) (name : String) : Option Node :=
  ((d.entries n).find? fun e => d.name? e.1 = some name).map (·.2)

variable {d}

theorem name?_eq_some_iff {k : Node} {name : String} :
    d.name? k = some name ↔ d.text? k = some (some name) := by
  unfold name?
  rcases d.text? k with _ | _ | s <;> simp

theorem text?_of_key? {k : Node} {name : String} (h : (d.resolve k).key? = some (.text name)) :
    d.text? k = some (some name) := by
  unfold text?
  cases hk : d.resolve k with
  | scalar line tag style text =>
      rw [hk] at h
      simp only [Node.key?] at h
      split at h <;> simp_all
  | _ => simp [hk, Node.key?] at h

theorem names_nil : d.names [] = ∅ := by
  simp [names]

theorem names_cons_none {e : Node × Node} {es : List (Node × Node)} (h : d.text? e.1 = some none) :
    d.names (e :: es) = d.names es := by
  ext name
  simp [names, name?, h]

theorem names_cons_some {e : Node × Node} {es : List (Node × Node)} {name : String}
    (h : d.text? e.1 = some (some name)) : d.names (e :: es) = insert name (d.names es) := by
  ext s
  simp [names, name?, h, eq_comm]

theorem names_append (es fs : List (Node × Node)) :
    d.names (es ++ fs) = d.names es ∪ d.names fs := by
  ext name
  simp [names, or_and_right, exists_or]

end Document

/-! ### Filling -/

namespace Shape

open Fit

/-- The parts of a shape begin and end outside of merges. -/
def SteadyParts (s : Shape α) : Prop :=
  ∀ name part, s.part name = some part → ∀ v a, Steady (part v a)

/-- What is asked of a shape: its parts are steady, a key with one of its names is a text by itself,
and no record takes a node as it stands. -/
structure Regular (s : Shape α) : Prop where
  steady : s.SteadyParts
  worded : ∀ name, (s.part name).isSome → ∀ times, Meaning.ofText times name = .text
  unmerged : s.part Node.mergeMark = none
  whole : s.whole = none

/-- The entries turn the record `a` into another one, where the names in `seen` are passed over. -/
inductive Fills (d : Document) (s : Shape α) :
    Set String → List (Node × Node) → α → α → Prop
  | nil {seen : Set String} {a : α} : Fills d s seen [] a a
  | blank {seen : Set String} {e : Node × Node} {es : List (Node × Node)} {a c : α} :
      d.text? e.1 = some none → Fills d s seen es a c → Fills d s seen (e :: es) a c
  | again {seen : Set String} {e : Node × Node} {es : List (Node × Node)} {a c : α}
      {name : String} :
      d.text? e.1 = some (some name) → name ∈ seen → Fills d s seen es a c →
        Fills d s seen (e :: es) a c
  | unknown {seen : Set String} {e : Node × Node} {es : List (Node × Node)} {a c : α}
      {name : String} :
      d.text? e.1 = some (some name) → s.part name = none → s.strict = false →
        Fills d s (insert name seen) es a c → Fills d s seen (e :: es) a c
  | part {seen : Set String} {e : Node × Node} {es : List (Node × Node)} {a b c : α}
      {name : String} {part : Node → α → Fit α} :
      d.text? e.1 = some (some name) → name ∉ seen → s.part name = some part →
        Clean (part e.2 a) b → Fills d s (insert name seen) es b c → Fills d s seen (e :: es) a c

variable {d : Document} {s : Shape α} {seen seen' : Set String} {es fs : List (Node × Node)}
  {a b c : α}

theorem Fills.append (h : s.Fills d seen es a b) (h' : s.Fills d (seen ∪ d.names es) fs b c) :
    s.Fills d seen (es ++ fs) a c := by
  induction h with
  | nil => simpa [Document.names_nil] using h'
  | blank htext _ ih =>
      rw [Document.names_cons_none htext] at h'
      exact .blank htext (ih h')
  | @again seen e es a b name htext hseen _ ih =>
      rw [Document.names_cons_some htext, Set.union_insert, ← Set.insert_union,
        Set.insert_eq_of_mem hseen] at h'
      exact .again htext hseen (ih h')
  | unknown htext hpart hstrict _ ih =>
      rw [Document.names_cons_some htext, Set.union_insert, ← Set.insert_union] at h'
      exact .unknown htext hpart hstrict (ih h')
  | part htext hseen hpart hclean _ ih =>
      rw [Document.names_cons_some htext, Set.union_insert, ← Set.insert_union] at h'
      exact .part htext hseen hpart hclean (ih h')

/-- Entries whose name is passed over may be left out. -/
theorem Fills.filter {name : String} (h : s.Fills d seen es a c) (hname : name ∈ seen) :
    s.Fills d seen (es.filter fun e => d.name? e.1 ≠ some name) a c := by
  induction h with
  | nil => exact .nil
  | blank htext _ ih =>
      rw [List.filter_cons_of_pos (by simp [Document.name?, htext])]
      exact .blank htext (ih hname)
  | @again seen e es a c name' htext hseen _ ih =>
      rw [List.filter_cons]
      split
      · exact .again htext hseen (ih hname)
      · exact ih hname
  | @unknown seen e es a c name' htext hpart hstrict _ ih =>
      have hrest := ih (Set.mem_insert_of_mem _ hname)
      rw [List.filter_cons]
      split
      · exact .unknown htext hpart hstrict hrest
      · next hfound =>
        obtain rfl : name' = name := by simpa [Document.name?, htext] using hfound
        rwa [Set.insert_eq_of_mem hname] at hrest
  | @part seen e es a b c name' part htext hseen hpart hclean _ ih =>
      have hne : name' ≠ name := fun h => hseen (h ▸ hname)
      rw [List.filter_cons_of_pos (by simp [Document.name?, htext, hne])]
      exact .part htext hseen hpart hclean (ih (Set.mem_insert_of_mem _ hname))

/-- What is passed over may change as far as no entry shows it. -/
theorem Fills.reseen {name : String} (h : s.Fills d seen es a c) (hunmerged : s.part name = none)
    (hes : ∀ e ∈ es, d.name? e.1 ≠ some name) (hsub : seen ⊆ insert name seen')
    (hsup : ∀ x ∈ seen', (s.part x).isSome → x ∈ seen) : s.Fills d seen' es a c := by
  induction h generalizing seen' with
  | nil => exact .nil
  | blank htext _ ih =>
      exact .blank htext (ih (fun e he => hes e (List.mem_cons_of_mem _ he)) hsub hsup)
  | @again seen e es a c name' htext hseen _ ih =>
      have hne : name' ≠ name := by
        rintro rfl
        exact hes e List.mem_cons_self (Document.name?_eq_some_iff.mpr htext)
      exact .again htext ((hsub hseen).resolve_left hne)
        (ih (fun e he => hes e (List.mem_cons_of_mem _ he)) hsub hsup)
  | @unknown seen e es a c name' htext hpart hstrict _ ih =>
      refine .unknown htext hpart hstrict
        (ih (fun e he => hes e (List.mem_cons_of_mem _ he)) ?_ ?_)
      · rw [Set.insert_comm]
        exact Set.insert_subset_insert hsub
      · rintro x (rfl | hx) hknown
        · exact Set.mem_insert ..
        · exact Set.mem_insert_of_mem _ (hsup x hx hknown)
  | @part seen e es a b c name' part htext hseen hpart hclean _ ih =>
      refine .part htext (fun hseen' => hseen (hsup _ hseen' (by simp [hpart]))) hpart hclean
        (ih (fun e he => hes e (List.mem_cons_of_mem _ he)) ?_ ?_)
      · rw [Set.insert_comm]
        exact Set.insert_subset_insert hsub
      · rintro x (rfl | hx) hknown
        · exact Set.mem_insert ..
        · exact Set.mem_insert_of_mem _ (hsup x hx hknown)

/-! ### Entries in use -/

/-- A key of a record, which has to be a text. -/
def recordKey (d : Document) (n : Node) : Fit (Option Key) := do pure ((← text d n).map .text)

/-- The names that count as present. -/
def seenIn : Option (List Key) → Set String
  | none => ∅
  | some present => {name | Key.text name ∈ present}

/-- Of the keys before, names were added when a merge is going on. -/
structure Adds (m : Option (List Key)) (added : Set String) (m' : Option (List Key)) : Prop where
  isSome : m'.isSome = m.isSome
  seen : m.isSome → seenIn m' = seenIn m ∪ added

/-- The names in `seen` are those that are passed over: in a merge all that are present, and else
those with a part that the record has from before. -/
def Passes (s : Shape α) (seen : Set String) (r : α × List String) : Option (List Key) → Prop
  | none => ∀ name ∈ seen, (s.part name).isSome → name ∈ r.2
  | some present => seen = seenIn (some present)

/-- An entry with a name turns a record, and the names of its parts so far, into others. -/
inductive Uses (s : Shape α) (name : String) (v : Node) (r : α × List String) :
    α × List String → Prop
  | unknown : s.part name = none → s.strict = false → Uses s name v r r
  | part {part : Node → α → Fit α} {b : α} :
      s.part name = some part → name ∉ r.2 → Clean (part v r.1) b → Uses s name v r (b, name :: r.2)

theorem ensures_usePart (h : s.SteadyParts) (r : α × List String) (name : String) (v : Node) :
    Ensures (· = none) (s.usePart r (.text name) v) fun r' m => s.Uses name v r r' ∧ m = none := by
  unfold usePart
  dsimp only
  split
  · next part hpart =>
    split
    · exact ensures_noteFlaw.bind fun _ => ensures_pure fun _ h => h.elim
    · next hnew =>
      have hnew : name ∉ r.2 := by simpa using hnew
      exact (h name part hpart v r.1).clean.bind fun b =>
        ensures_pure fun _ hb => ⟨.part hpart hnew hb.1, hb.2⟩
  · next hpart =>
    split
    · exact ensures_noteFlaw.bind fun _ => ensures_pure fun _ h => h.elim
    · next hstrict =>
      exact ensures_pure fun _ hm => ⟨.unknown hpart (Bool.eq_false_of_not_eq_true hstrict), hm⟩

theorem Uses.fills {name : String} {e : Node × Node} {r r' : α × List String}
    (h : s.Uses name e.2 r r') (htext : d.text? e.1 = some (some name))
    (hseen : (s.part name).isSome → name ∉ seen) : s.Fills d seen [e] r.1 r'.1 := by
  cases h with
  | unknown hpart hstrict => exact .unknown htext hpart hstrict .nil
  | part hpart _ hclean => exact .part htext (hseen (by simp [hpart])) hpart hclean .nil

/-- Outside of a merge a name that is used is passed over from then on. -/
theorem Uses.passes {name : String} {v : Node} {r r' : α × List String} (h : s.Uses name v r r')
    (hpasses : s.Passes seen r none) : s.Passes (insert name seen) r' none := by
  rintro x (rfl | hx) hknown
  · cases h with
    | unknown hpart => simp [hpart] at hknown
    | part => exact List.mem_cons_self
  · have hnoted := hpasses x hx hknown
    cases h with
    | unknown => exact hnoted
    | part => exact List.mem_cons_of_mem _ hnoted

/-- Outside of a merge a part that is used was not passed over. -/
theorem Uses.not_mem {name : String} {v : Node} {r r' : α × List String} (h : s.Uses name v r r')
    (hpasses : s.Passes seen r none) (hknown : (s.part name).isSome) : name ∉ seen := by
  intro hin
  cases h with
  | unknown hpart => simp [hpart] at hknown
  | part _ hnew => exact hnew (hpasses name hin hknown)

theorem seenIn_cons (name : String) (present : List Key) :
    seenIn (some (.text name :: present)) = insert name (seenIn (some present)) := by
  ext x
  simp [seenIn]

theorem ensures_useEntry (h : s.SteadyParts) (seen : Set String)
    (p : (α × List String) × Option (List Key)) (e : Node × Node) :
    Ensures (fun m => s.Passes seen p.1 p.2 ∧ m = none) (useEntry (recordKey d) s.usePart p e)
      fun p' m =>
        (s.Fills d seen ([e].filter Document.isOwn) p.1.1 p'.1.1 ∧ p'.2.isSome = p.2.isSome ∧
          s.Passes (seen ∪ d.names ([e].filter Document.isOwn)) p'.1 p'.2) ∧ m = none := by
  obtain ⟨r, o⟩ := p
  unfold useEntry
  split
  · next hmerge =>
    rw [List.filter_cons_of_neg (by simpa [Document.isOwn] using hmerge)]
    exact ensures_pure fun _ hm => ⟨⟨.nil, rfl, by simpa [Document.names_nil] using hm.1⟩, hm.2⟩
  · next hmerge =>
    rw [List.filter_cons_of_pos (by simpa [Document.isOwn] using hmerge), List.filter_nil]
    simp only [recordKey, bind_assoc, pure_bind]
    refine (ensures_text d e.1).bind fun text => ?_
    cases text with
    | none =>
        refine ensures_pure fun _ ⟨htext, hpasses, hm⟩ => ⟨⟨.blank htext .nil, rfl, ?_⟩, hm⟩
        rw [Document.names_cons_none htext]
        simpa [Document.names_nil] using hpasses
    | some name =>
        have hnames (htext : d.text? e.1 = some (some name)) :
            seen ∪ d.names [e] = insert name seen := by
          rw [Document.names_cons_some htext, Document.names_nil, Set.union_insert,
            Set.union_empty]
        have hused (o : Option (List Key)) := ((ensures_usePart h r name e.2).frame
          (s.Passes seen r o)).frame (d.text? e.1 = some (some name))
        cases o with
        | none =>
            refine (hused none).bind fun r' => ensures_pure ?_
            rintro m ⟨htext, hpasses, huses, hm⟩
            refine ⟨⟨huses.fills htext (huses.not_mem hpasses), rfl, ?_⟩, hm⟩
            rw [hnames htext]
            exact huses.passes hpasses
        | some present =>
            have hseen (hpasses : seen = seenIn (some present)) :
                name ∈ seen ↔ present.contains (.text name) = true := by
              rw [hpasses]
              simp [seenIn]
            dsimp only [Option.map]
            rw [if_neg (by simp [Key.isCollection])]
            split
            · next hpresent =>
              refine ensures_pure fun _ ⟨htext, hpasses, hm⟩ => ?_
              have hin : name ∈ seen := (hseen hpasses).mpr hpresent
              refine ⟨⟨.again htext hin .nil, rfl, ?_⟩, hm⟩
              rwa [hnames htext, Set.insert_eq_of_mem hin]
            · next hpresent =>
              refine (hused (some present)).bind fun r' => ensures_pure ?_
              rintro m ⟨htext, hpasses, huses, hm⟩
              have hnew : name ∉ seen := fun hin => hpresent ((hseen hpasses).mp hin)
              refine ⟨⟨huses.fills htext fun _ => hnew, rfl, ?_⟩, hm⟩
              rw [hnames htext, hpasses]
              exact (seenIn_cons name present).symm

theorem ensures_foldlM_useEntry (h : s.SteadyParts) (seen : Set String)
    (p : (α × List String) × Option (List Key)) (es : List (Node × Node)) :
    Ensures (fun m => s.Passes seen p.1 p.2 ∧ m = none)
      (es.foldlM (useEntry (recordKey d) s.usePart) p) fun p' m =>
        (s.Fills d seen (es.filter Document.isOwn) p.1.1 p'.1.1 ∧ p'.2.isSome = p.2.isSome ∧
          s.Passes (seen ∪ d.names (es.filter Document.isOwn)) p'.1 p'.2) ∧ m = none := by
  induction es generalizing seen p with
  | nil =>
      exact ensures_pure fun _ hm => ⟨⟨.nil, rfl, by simpa [Document.names_nil] using hm.1⟩, hm.2⟩
  | cons e es ih =>
      rw [List.foldlM_cons]
      refine (ensures_useEntry h seen p e).bind fun p₁ => ?_
      refine ((ih (seen ∪ d.names ([e].filter Document.isOwn)) p₁).frame
        (s.Fills d seen ([e].filter Document.isOwn) p.1.1 p₁.1.1 ∧ p₁.2.isSome = p.2.isSome)).mono
        (fun _ hm => ⟨⟨hm.1.1, hm.1.2.1⟩, hm.1.2.2, hm.2⟩) ?_
      rintro p₂ m ⟨⟨hfirst, hsome⟩, ⟨hrest, hsome', hpasses⟩, hm⟩
      have hsplit : (e :: es).filter Document.isOwn =
          [e].filter Document.isOwn ++ es.filter Document.isOwn := by
        rw [← List.filter_append, List.singleton_append]
      rw [hsplit, Document.names_append, ← Set.union_assoc]
      exact ⟨⟨hfirst.append hrest, hsome'.trans hsome, hpasses⟩, hm⟩

theorem ensures_useEntries (h : s.SteadyParts) (m₀ : Option (List Key)) (a : α)
    (es : List (Node × Node)) :
    Ensures (· = m₀) (useEntries (recordKey d) s.usePart (a, []) es) fun r m =>
      s.Fills d (seenIn m₀) (es.filter Document.isOwn) a r.1 ∧
        Adds m₀ (d.names (es.filter Document.isOwn)) m := by
  refine ensures_get.bind fun t => ?_
  have hclear : Ensures (fun m => t.merged = m ∧ m = m₀)
      (modify fun t => { t with merged := none }) fun _ m => t.merged = m₀ ∧ m = none :=
    ensures_modify (fun _ => rfl) fun _ hm => ⟨hm.1.trans hm.2, rfl⟩
  have hstart : s.Passes (seenIn t.merged) (a, []) t.merged := by
    cases t.merged with
    | none => exact fun _ hname => hname.elim
    | some present => rfl
  refine hclear.bind fun _ => ?_
  have hfold := (ensures_foldlM_useEntry (d := d) h (seenIn t.merged) ((a, []), t.merged) es).frame
    (t.merged = m₀)
  refine (hfold.mono (fun _ hm => ⟨hm.1, hstart, hm.2⟩) fun _ _ hm => hm).bind fun p => ?_
  obtain ⟨r, o⟩ := p
  have hrestore : Ensures (fun m => t.merged = m₀ ∧
        (s.Fills d (seenIn t.merged) (es.filter Document.isOwn) a r.1 ∧
          o.isSome = t.merged.isSome ∧
          s.Passes (seenIn t.merged ∪ d.names (es.filter Document.isOwn)) r o) ∧ m = none)
      (modify fun t => { t with merged := o }) fun _ m =>
        s.Fills d (seenIn m₀) (es.filter Document.isOwn) a r.1 ∧
          Adds m₀ (d.names (es.filter Document.isOwn)) m := by
    refine ensures_modify (fun _ => rfl) ?_
    rintro _ ⟨rfl, ⟨hfills, hsome, hpasses⟩, -⟩
    refine ⟨hfills, hsome, fun hmerged => ?_⟩
    cases o with
    | none => simp [hmerged] at hsome
    | some present => exact hpasses.symm
  exact hrestore.bind fun _ => ensures_pure fun _ hm => hm

/-! ### Merges -/

theorem ensures_note {A : Option (List Key) → Prop} (k : Key) :
    Ensures A (note k) fun _ m =>
      k.isCollection = false ∧ ∃ m', A m' ∧ m = m'.map (k :: ·) := by
  unfold note
  split
  · exact ensures_throw _
  · next hscalar =>
    exact ensures_modify (fun _ => rfl) fun t ht =>
      ⟨Bool.eq_false_of_not_eq_true hscalar, _, ht, rfl⟩

theorem ensures_note_each (d : Document) (fuel : Nat) (K : Key → Prop) (es : List (Node × Node)) :
    Ensures (fun m => ∃ present, m = some present ∧ ∀ k, k ∈ present ↔ K k)
      (es.forM fun e => do
        match ← any d fuel e.1 with
        | none => pure ()
        | some k => note k)
      fun _ m => ∃ present, m = some present ∧
        ∀ k, k ∈ present ↔ K k ∨ ∃ e ∈ es, (d.resolve e.1).key? = some k := by
  induction es generalizing K with
  | nil => exact ensures_pure fun _ ⟨present, hm, hK⟩ => ⟨present, hm, by simpa using hK⟩
  | cons e es ih =>
      have hstep : Ensures (fun m => ∃ present, m = some present ∧ ∀ k, k ∈ present ↔ K k)
          (any d fuel e.1 >>= fun k => match k with
            | none => pure ()
            | some k => note k)
          fun _ m => ∃ present, m = some present ∧
            ∀ k, k ∈ present ↔ K k ∨ (d.resolve e.1).key? = some k := by
        refine (ensures_any d fuel e.1).bind fun k => ?_
        cases k with
        | none => exact ensures_pure fun _ ⟨_, h, _⟩ => nomatch h
        | some k =>
            refine (ensures_note k).mono (fun _ hm => hm) ?_
            rintro _ m ⟨hscalar, m', ⟨k', hk, hk'⟩, rfl⟩
            obtain rfl := Option.some.inj hk
            rcases hk' with hcollection | ⟨hkey, present, rfl, hK⟩
            · simp [hscalar] at hcollection
            · refine ⟨k :: present, rfl, fun k' => ?_⟩
              rw [List.mem_cons, hK, hkey, Option.some.injEq, or_comm, eq_comm]
      refine hstep.bind fun _ => (ih _).mono (fun _ hm => hm) fun _ m hm => ?_
      obtain ⟨present, hm, hpresent⟩ := hm
      refine ⟨present, hm, fun k => ?_⟩
      rw [hpresent, List.exists_mem_cons_iff, or_assoc]

/-- Inside a merge nothing is noted; at its start the names of all keys are. -/
theorem ensures_noteKeys (d : Document) (fuel : Nat) (m₀ : Option (List Key))
    (es : List (Node × Node)) :
    Ensures (· = m₀) (noteKeys (any d fuel) es) fun _ m =>
      ∃ present, m = some present ∧
        seenIn (some present) = if m₀.isSome then seenIn m₀ else d.keyNames es := by
  refine ensures_get.bind fun t => ?_
  split
  · next hnone =>
    have hempty : Ensures (fun m => t.merged = m ∧ m = m₀)
        (modify fun t => { t with merged := some [] })
        fun _ m => m₀ = none ∧ ∃ present, m = some present ∧ ∀ k, k ∈ present ↔ False :=
      ensures_modify (fun _ => rfl) fun _ hm =>
        ⟨hm.2.symm.trans (hm.1.symm.trans (Option.isNone_iff_eq_none.mp hnone)), [], rfl, by simp⟩
    refine hempty.bind fun _ => ?_
    refine ((ensures_note_each d fuel (fun _ => False) es).frame (m₀ = none)).mono
      (fun _ hm => hm) ?_
    rintro _ m ⟨rfl, present, hm, hpresent⟩
    refine ⟨present, hm, ?_⟩
    ext name
    simp [seenIn, Document.keyNames, hpresent]
  · next hsome =>
    refine ensures_pure ?_
    rintro m ⟨hm, rfl⟩
    obtain ⟨present, hpresent⟩ := Option.ne_none_iff_exists'.mp
      fun h => hsome (Option.isNone_iff_eq_none.mpr h)
    rw [hm] at hpresent
    exact ⟨present, hpresent, by simp [hpresent]⟩

section merging

variable {fuel : Nat}

/-- In a merge, `add` fills a record from the entries that a node contributes. -/
def AddsMerged (d : Document) (s : Shape α) (fuel : Nat) : Prop :=
  ∀ a n present, Ensures (fun m => Key.text Node.mergeMark ∈ present ∧ m = some present)
    (s.add d fuel a n) fun r m =>
      s.Fills d (seenIn (some present)) (d.gathered fuel d.isBrought n) a (r.getD a) ∧
        Adds (some present) (d.names (d.gathered fuel d.isBrought n)) m

/-- Adds the entries of a node that a merge key asks for. -/
def addMerged (d : Document) (s : Shape α) (fuel : Nat) (a : α) (n : Node) : Fit α :=
  visit d n fun n => do pure ((← s.add d fuel a n).getD a)

theorem ensures_mergeOne (h : AddsMerged d s fuel) (a : α) (n : Node) (present : List Key) :
    Ensures (fun m => Key.text Node.mergeMark ∈ present ∧ m = some present)
      (mergeOne d (s.addMerged d fuel) a n) fun b m => ∃ present',
        (s.Fills d (seenIn (some present)) (d.brought fuel [n]) a b ∧
          seenIn (some present') = seenIn (some present) ∪ d.names (d.brought fuel [n])) ∧
        Key.text Node.mergeMark ∈ present' ∧ m = some present' := by
  unfold mergeOne
  split
  · have hadd := ((h a (d.resolve n) present).frame (Key.text Node.mergeMark ∈ present)).mono
      (fun _ hm => ⟨hm.1, hm⟩) fun _ _ hm => hm
    refine ensures_visit (hadd.bind fun r => ensures_pure ?_)
    rintro m ⟨hmark, hfills, hadds⟩
    obtain ⟨present', rfl⟩ := Option.isSome_iff_exists.mp hadds.isSome
    have hseen := hadds.seen rfl
    have hmark' : Node.mergeMark ∈ seenIn (some present') := hseen ▸ .inl hmark
    refine ⟨present', ⟨?_, ?_⟩, hmark', rfl⟩
    · simpa [Document.brought] using hfills
    · simpa [Document.brought] using hseen
  · exact ensures_refuse

theorem ensures_foldlM_mergeOne (h : AddsMerged d s fuel) (a : α) (ns : List Node)
    (present : List Key) :
    Ensures (fun m => Key.text Node.mergeMark ∈ present ∧ m = some present)
      (ns.foldlM (mergeOne d (s.addMerged d fuel)) a) fun b m =>
        s.Fills d (seenIn (some present)) (d.brought fuel ns) a b ∧
          Adds (some present) (d.names (d.brought fuel ns)) m := by
  induction ns generalizing a present with
  | nil =>
      refine ensures_pure ?_
      rintro m ⟨-, rfl⟩
      exact ⟨.nil, rfl, fun _ => by simp [Document.brought, Document.names_nil]⟩
  | cons n ns ih =>
      rw [List.foldlM_cons]
      refine (ensures_mergeOne h a n present).bind fun b => .of_exists fun present' => ?_
      refine ((ih b present').frame _).mono (fun _ hm => hm) ?_
      rintro c m ⟨⟨hfills, hseen⟩, hrest, hadds⟩
      have hsplit : d.brought fuel (n :: ns) = d.brought fuel [n] ++ d.brought fuel ns := by
        simp [Document.brought]
      rw [hsplit, Document.names_append]
      refine ⟨hfills.append (hseen ▸ hrest), hadds.isSome, fun _ => ?_⟩
      rw [hadds.seen rfl, hseen, Set.union_assoc]

theorem key?_of_isMerge {k : Node} (h : k.isMerge = true) :
    (d.resolve k).key? = some (.text Node.mergeMark) := by
  cases k with
  | scalar line tag style text =>
      simp only [Node.isMerge, Bool.and_eq_true, Bool.or_eq_true, beq_iff_eq] at h
      obtain ⟨rfl, ⟨rfl, rfl⟩ | rfl⟩ := h
      · rfl
      · rfl
  | _ => cases h

/-- A mapping with a merge key has that name among those that count as present. -/
theorem mergeMark_mem {m₀ : Option (List Key)} {e : Node × Node}
    (hmark : m₀.isSome → Node.mergeMark ∈ seenIn m₀) (he : e ∈ es) (hmerge : e.1.isMerge = true) :
    Node.mergeMark ∈ if m₀.isSome then seenIn m₀ else d.keyNames es := by
  split
  · next hsome => exact hmark hsome
  · exact ⟨e, he, key?_of_isMerge hmerge⟩

/-- The outermost merge forgets which names counted as present in it. -/
theorem ensures_leaveMerge (m₀ : Option (List Key)) (keys added : Set String)
    (present : List Key) (b : α) :
    Ensures (fun m => seenIn (some present) = (if m₀.isSome then seenIn m₀ else keys) ∧
        Adds (some present) added m)
      (do
        if m₀.isNone then modify fun t => { t with merged := none }
        pure b)
      fun b' m => b' = b ∧ Adds m₀ added m := by
  cases m₀ with
  | none =>
      have hend : Ensures (fun m => seenIn (some present) = keys ∧ Adds (some present) added m)
          (modify fun t => { t with merged := none }) fun _ m => Adds none added m :=
        ensures_modify (fun _ => rfl) fun _ _ => ⟨rfl, nofun⟩
      exact hend.bind fun _ => ensures_pure fun _ hm => ⟨rfl, hm⟩
  | some outer =>
      refine ensures_pure fun m ⟨hseen, hadds⟩ => ⟨rfl, hadds.isSome, fun _ => ?_⟩
      rw [hadds.seen rfl, hseen]
      rfl

theorem ensures_merge (h : AddsMerged d s fuel) (m₀ : Option (List Key)) (a : α)
    (es : List (Node × Node)) :
    Ensures (fun m => (m₀.isSome → Node.mergeMark ∈ seenIn m₀) ∧ m = m₀)
      (merge d (any d fuel) (s.addMerged d fuel) a es) fun b m =>
        s.Fills d (if m₀.isSome then seenIn m₀ else d.keyNames es)
            (d.brought fuel (Document.mergedNodes es)) a b ∧
          Adds m₀ (d.names (d.brought fuel (Document.mergedNodes es))) m := by
  unfold merge Document.mergedNodes
  cases hlast : (es.filter (·.1.isMerge)).getLast? with
  | none =>
      refine ensures_pure ?_
      rintro m ⟨-, rfl⟩
      exact ⟨.nil, rfl, fun _ => by simp [Document.brought, Document.names_nil]⟩
  | some e =>
      obtain ⟨k, n⟩ := e
      obtain ⟨hmem, hmerge⟩ := List.mem_filter.mp (List.mem_of_getLast? hlast)
      refine ensures_get.bind fun t => ?_
      have hnote := (ensures_noteKeys d fuel m₀ es).frame
        (t.merged = m₀ ∧ (m₀.isSome → Node.mergeMark ∈ seenIn m₀))
      refine Ensures.bind (hnote.mono (fun _ hm => ?_) fun _ _ hm => hm) fun _ => ?_
      · exact ⟨⟨hm.1.trans hm.2.2, hm.2.1⟩, hm.2.2⟩
      let seen := if m₀.isSome then seenIn m₀ else d.keyNames es
      let known (present : List Key) : Prop := t.merged = m₀ ∧ seenIn (some present) = seen
      have hpresent : ∀ m, (t.merged = m₀ ∧ (m₀.isSome → Node.mergeMark ∈ seenIn m₀)) ∧
          (∃ present, m = some present ∧ seenIn (some present) = seen) →
          ∃ present, known present ∧ Key.text Node.mergeMark ∈ present ∧ m = some present := by
        rintro m ⟨⟨ht, hmark⟩, present, hm, hseen⟩
        have hin : Node.mergeMark ∈ seenIn (some present) :=
          hseen ▸ mergeMark_mem hmark hmem hmerge
        exact ⟨present, ⟨ht, hseen⟩, hin, hm⟩
      refine Ensures.mono (.of_exists fun present => ?_) hpresent fun _ _ hm => hm
      refine ((ensures_foldlM_mergeOne h a (mergeSources n) present).frame
        (known present)).bind fun b => ?_
      have hleave := ensures_leaveMerge t.merged (d.keyNames es)
        (d.names (d.brought fuel (mergeSources n))) present b
      refine (hleave.frame
        (t.merged = m₀ ∧ s.Fills d seen (d.brought fuel (mergeSources n)) a b)).mono ?_ ?_
      · rintro m ⟨⟨rfl, hseen⟩, hfills, hadds⟩
        exact ⟨⟨rfl, hseen ▸ hfills⟩, hseen, hadds⟩
      · rintro _ m ⟨⟨rfl, hfills⟩, rfl, hadds⟩
        exact ⟨hfills, hadds⟩

end merging

/-! ### Records -/

theorem gathered_of_not_mapping {fuel : Nat} {keep : Node × Node → Bool} {n : Node}
    (h : ∀ line tag es, n ≠ .mapping line tag es) : d.gathered fuel keep n = [] := by
  cases fuel with
  | zero => rfl
  | succ fuel =>
      cases n with
      | mapping line tag es => exact absurd rfl (h line tag es)
      | _ => rfl

theorem sticky_add (h : s.SteadyParts) (fuel : Nat) (a : α) (n : Node) :
    Sticky (s.add d fuel a n) := by
  induction fuel generalizing a n with
  | zero => exact ensures_refuse
  | succ fuel ih =>
      unfold add
      split
      · exact sticky_pure _
      · split
        · exact ensures_flaw.elim
        · refine (ensures_useEntries h none a _).sticky.after fun r => ?_
          refine (sticky_merge (sticky_any fuel) (fun b m => ensures_visit ?_) r.1 _).after fun _ =>
            sticky_pure _
          exact (ih b _).after fun _ => sticky_pure _
      · exact (ensures_nothing (A := fun _ => True) _ _ _).sticky
      · exact ensures_flaw.elim

/-- A record that is read outside of a merge leaves nothing behind of the merges inside it. -/
theorem steady_add (h : s.SteadyParts) (fuel : Nat) (a : α) (n : Node) :
    Steady (s.add d fuel a n) := by
  cases fuel with
  | zero => exact ensures_refuse
  | succ fuel =>
      unfold add
      split
      · exact ensures_pure fun _ hm => hm
      · next line tag es _ =>
        split
        · exact ensures_flaw.elim
        · refine (ensures_useEntries h none a es).bind fun r => ?_
          have hmerge : Steady (merge d (any d fuel) (s.addMerged d fuel) r.1 es) :=
            steady_merge (sticky_any fuel) (fun b m => ensures_visit
              ((sticky_add h fuel b _).after fun _ => sticky_pure _)) r.1 es
          refine (hmerge.mono (fun m hm => ?_) fun _ _ hm => hm).bind fun b =>
            ensures_pure fun _ hm => hm
          simpa using hm.2.isSome
      · exact (ensures_nothing _ _ _).mono (fun _ hm => hm) fun _ _ hm => hm.2
      · exact ensures_flaw.elim

/-- How the entries of a mapping are added to a record: those that are written in it, and those
that its merge key brings. -/
theorem ensures_add_mapping (h : s.Regular) {fuel : Nat} (hmerged : AddsMerged d s fuel)
    (m₀ : Option (List Key)) (a : α) (line : Nat) (tag : String) (es : List (Node × Node)) :
    Ensures (fun m => (m₀.isSome → Node.mergeMark ∈ seenIn m₀) ∧ m = m₀)
      (s.add d (fuel + 1) a (.mapping line tag es)) fun r m => ∃ b c m₁, r = some c ∧
        (s.Fills d (seenIn m₀) (es.filter Document.isOwn) a b ∧
          Adds m₀ (d.names (es.filter Document.isOwn)) m₁) ∧
        s.Fills d (if m₁.isSome then seenIn m₁ else d.keyNames es)
            (d.brought fuel (Document.mergedNodes es)) b c ∧
          Adds m₁ (d.names (d.brought fuel (Document.mergedNodes es))) m := by
  unfold add
  simp only [h.whole]
  split
  · exact ensures_flaw.elim
  · have huse := (ensures_useEntries (d := d) h.steady m₀ a es).frame
      (m₀.isSome → Node.mergeMark ∈ seenIn m₀)
    refine huse.bind fun r => ?_
    let own (m₁ : Option (List Key)) : Prop :=
      s.Fills d (seenIn m₀) (es.filter Document.isOwn) a r.1 ∧
        Adds m₀ (d.names (es.filter Document.isOwn)) m₁
    have hmark : ∀ m, (m₀.isSome → Node.mergeMark ∈ seenIn m₀) ∧ own m →
        ∃ m₁, own m₁ ∧ (m₁.isSome → Node.mergeMark ∈ seenIn m₁) ∧ m = m₁ := by
      rintro m ⟨hmark, hown⟩
      refine ⟨m, hown, fun hsome => ?_, rfl⟩
      have hsome₀ : m₀.isSome := hown.2.isSome ▸ hsome
      exact hown.2.seen hsome₀ ▸ .inl (hmark hsome₀)
    refine Ensures.mono (.of_exists fun m₁ => ?_) hmark fun _ _ hm => hm
    refine ((ensures_merge hmerged m₁ r.1 es).frame (own m₁)).bind fun c => ?_
    exact ensures_pure fun m hm => ⟨r.1, c, m₁, rfl, hm⟩

/-- What is no mapping adds nothing. -/
theorem ensures_add_other (h : s.Regular) {fuel : Nat} {A : Option (List Key) → Prop} (a : α)
    {n : Node} (hn : ∀ line tag es, n ≠ .mapping line tag es) :
    Ensures A (s.add d (fuel + 1) a n) fun r m => r = none ∧ A m := by
  unfold add
  simp only [h.whole]
  cases n with
  | mapping line tag es => exact absurd rfl (hn line tag es)
  | scalar line tag style text => exact ensures_nothing tag style text
  | _ => exact ensures_flaw.elim

theorem name?_of_isMerge {k : Node} (h : k.isMerge = true) :
    d.name? k = some Node.mergeMark := by
  rw [Document.name?_eq_some_iff]
  exact Document.text?_of_key? (key?_of_isMerge h)

theorem filter_isBrought (d : Document) (es : List (Node × Node)) :
    es.filter d.isBrought =
      (es.filter Document.isOwn).filter fun e => d.name? e.1 ≠ some Node.mergeMark := by
  rw [List.filter_filter]
  refine List.filter_congr fun e _ => ?_
  cases hmerge : e.1.isMerge with
  | false => simp [Document.isBrought, Document.isOwn, hmerge]
  | true => simp [Document.isBrought, name?_of_isMerge hmerge]

theorem union_names_isBrought (hmark : Node.mergeMark ∈ seen) (es : List (Node × Node)) :
    seen ∪ d.names (es.filter Document.isOwn) = seen ∪ d.names (es.filter d.isBrought) := by
  rw [filter_isBrought]
  ext name
  by_cases hname : name = Node.mergeMark
  · simp [hname, hmark]
  · refine or_congr_right ⟨fun ⟨e, he, hfound⟩ => ⟨e, ?_, hfound⟩, fun ⟨e, he, hfound⟩ =>
      ⟨e, (List.mem_filter.mp he).1, hfound⟩⟩
    exact List.mem_filter.mpr ⟨he, by simp [hfound, hname]⟩

theorem addsMerged (h : s.Regular) (fuel : Nat) : AddsMerged d s fuel := by
  induction fuel with
  | zero => exact fun _ _ _ => ensures_refuse
  | succ fuel ih =>
      intro a n present
      by_cases hn : ∃ line tag es, n = .mapping line tag es
      · obtain ⟨line, tag, es, rfl⟩ := hn
        refine ((ensures_add_mapping h ih (some present) a line tag es).frame
          (Node.mergeMark ∈ seenIn (some present))).mono
            (fun m hm => ⟨hm.1, fun _ => hm.1, hm.2⟩) ?_
        rintro r m ⟨hmark, b, c, m₁, rfl, ⟨hown, hadds⟩, hbrought, hadds'⟩
        have hseen := hadds.seen rfl
        rw [union_names_isBrought hmark] at hseen
        have hsome : m₁.isSome := hadds.isSome
        rw [if_pos hsome, hseen] at hbrought
        have hwritten := hown.filter hmark
        rw [← filter_isBrought] at hwritten
        have hgathered : d.gathered (fuel + 1) d.isBrought (.mapping line tag es) =
            es.filter d.isBrought ++ d.brought fuel (Document.mergedNodes es) := rfl
        rw [hgathered, Document.names_append]
        refine ⟨hwritten.append hbrought, hadds'.isSome.trans hadds.isSome, fun _ => ?_⟩
        rw [hadds'.seen hadds.isSome, hseen, Set.union_assoc]
      · have hother : ∀ line tag es, n ≠ .mapping line tag es :=
          fun line tag es h => hn ⟨line, tag, es, h⟩
        refine (ensures_add_other h a hother).mono (fun _ hm => hm) ?_
        rintro r m ⟨rfl, -, rfl⟩
        rw [gathered_of_not_mapping hother, Document.names_nil]
        exact ⟨.nil, rfl, fun _ => (Set.union_empty _).symm⟩

theorem isBrought_of_mem_gathered {fuel : Nat} {n : Node} {e : Node × Node}
    (h : e ∈ d.gathered fuel d.isBrought n) : d.isBrought e = true := by
  induction fuel generalizing n with
  | zero => cases h
  | succ fuel ih =>
      cases n with
      | mapping line tag es =>
          rcases List.mem_append.mp h with h | h
          · exact (List.mem_filter.mp h).2
          · obtain ⟨m, -, hm⟩ := List.mem_flatMap.mp h
            exact ih hm
      | _ => cases h

/-- The keys of a mapping with a merge key are its names and the merge mark. -/
theorem keyNames_subset (es : List (Node × Node)) :
    d.keyNames es ⊆ insert Node.mergeMark (d.names (es.filter Document.isOwn)) := by
  rintro name ⟨e, he, hkey⟩
  have hname := Document.name?_eq_some_iff.mpr (Document.text?_of_key? hkey)
  cases hmerge : e.1.isMerge with
  | true =>
      rw [name?_of_isMerge hmerge] at hname
      exact .inl (Option.some.inj hname).symm
  | false => exact .inr ⟨e, List.mem_filter.mpr ⟨he, by simp [Document.isOwn, hmerge]⟩, hname⟩

/-- A word that is spelled like a text is one, under whatever tag it can be read. -/
theorem meaning?_of_text {tag : String} {style : Style} {text : String} {m : Meaning}
    (h : Node.meaning? tag style text = some m)
    (htext : ∀ times, Meaning.ofText times text = .text) : m = .text := by
  unfold Node.meaning? at h
  simp only [htext] at h
  split at h
  · exact (Option.some.inj h).symm.trans (ite_self _)
  · split at h
    · next hchecked =>
      split at h
      · exact (Option.some.inj h).symm
      · cases h
    · exact (Option.some.inj h).symm

/-- A key with a name of the shape is a text by itself. -/
theorem key?_of_known (h : s.Regular) {k : Node} {name : String} (hknown : (s.part name).isSome)
    (hname : d.name? k = some name) : (d.resolve k).key? = some (.text name) := by
  have hsays : (d.resolve k).says? = some (some name) := Document.name?_eq_some_iff.mp hname
  cases hk : d.resolve k with
  | scalar line tag style text =>
      rw [hk] at hsays
      have hmeaning : Node.meaning? tag style text = some .text := by
        simp only [Node.says?] at hsays
        split at hsays
        · cases hsays
        · cases hsays
        · next m hnull hmeaning =>
          rw [hmeaning]
          obtain ⟨word, hcontent, hword⟩ := Option.map_eq_some_iff.mp hsays
          obtain rfl := Option.some.inj hword
          unfold Node.content? at hcontent
          split at hcontent
          · next htag =>
            obtain rfl := htag
            exact hmeaning.symm.trans rfl
          · obtain rfl := Option.some.inj hcontent
            rw [meaning?_of_text hmeaning (h.worded text hknown)]
      simp only [Node.key?, hsays, hmeaning]
  | _ => simp [hk, Node.says?] at hsays

theorem ensures_add (h : s.Regular) (fuel : Nat) (a : α) (n : Node) :
    Ensures (· = none) (s.add d fuel a n) fun r m =>
      (r = none ∧ d.gathered fuel Document.isOwn n = [] ∨
        ∃ c, r = some c ∧ s.Fills d ∅ (d.gathered fuel Document.isOwn n) a c) ∧ m = none := by
  cases fuel with
  | zero => exact ensures_refuse
  | succ fuel =>
      by_cases hn : ∃ line tag es, n = .mapping line tag es
      · obtain ⟨line, tag, es, rfl⟩ := hn
        refine (ensures_add_mapping h (addsMerged h fuel) none a line tag es).mono
          (fun m hm => ⟨nofun, hm⟩) ?_
        rintro r m ⟨b, c, m₁, rfl, ⟨hown, hadds⟩, hbrought, hadds'⟩
        have hm₁ : m₁ = none := by simpa using hadds.isSome
        have hm : m = none := by simpa [hm₁] using hadds'.isSome
        rw [hm₁, if_neg (by simp)] at hbrought
        refine ⟨.inr ⟨c, rfl, hown.append ?_⟩, hm⟩
        rw [seenIn, Set.empty_union]
        refine hbrought.reseen h.unmerged (fun e he => ?_) (keyNames_subset es) ?_
        · obtain ⟨n, -, hn⟩ := List.mem_flatMap.mp he
          simpa [Document.isBrought] using isBrought_of_mem_gathered hn
        · rintro name ⟨e, he, hname⟩ hknown
          exact ⟨e, (List.mem_filter.mp he).1, key?_of_known h hknown hname⟩
      · have hother : ∀ line tag es, n ≠ .mapping line tag es :=
          fun line tag es h => hn ⟨line, tag, es, h⟩
        refine (ensures_add_other h a hother).mono (fun _ hm => hm) ?_
        rintro r m ⟨rfl, rfl⟩
        exact ⟨.inl ⟨rfl, gathered_of_not_mapping hother⟩, rfl⟩

/-- What reading a mapping as a record comes to. -/
def Filled (d : Document) (s : Shape α) (n : Node) (r : Option α) : Prop :=
  r = none ∧ d.entries n = [] ∨ ∃ c, r = some c ∧ s.Fills d ∅ (d.entries n) s.empty c

theorem ensures_read (h : s.Regular) (n : Node) :
    Ensures (· = none) (s.read d n) fun r m => s.Filled d n r ∧ m = none :=
  ensures_visit (ensures_add h d.depth s.empty (d.resolve n))

theorem ensures_readMaybe (h : s.Regular) (n : Node) :
    Ensures (· = none) (s.readMaybe d n) fun r m => s.Filled d n r ∧ m = none := by
  refine ensures_visit ?_
  split
  · next hn =>
    refine (ensures_nothing _ _ _).mono (fun _ hm => hm) ?_
    rintro r m ⟨rfl, hm⟩
    refine ⟨.inl ⟨rfl, ?_⟩, hm⟩
    rw [Document.entries, hn]
    exact gathered_of_not_mapping nofun
  · exact ensures_flaw.elim
  · exact ensures_add h d.depth s.empty (d.resolve n)

theorem fills_of_read (h : s.Regular) {n : Node} {r : Option α} (hr : Clean (s.read d n) r) :
    s.Filled d n r :=
  ((ensures_read h n).of_clean hr).elim fun _ hm => hm.1

theorem fills_of_readMaybe (h : s.Regular) {n : Node} {r : Option α}
    (hr : Clean (s.readMaybe d n) r) : s.Filled d n r :=
  ((ensures_readMaybe h n).of_clean hr).elim fun _ hm => hm.1

/-! ### What filling tells -/

theorem Fills.named_of_strict (h : s.Fills d seen es a c) (hstrict : s.strict = true)
    (hseen : ∀ name ∈ seen, (s.part name).isSome) {e : Node × Node} (he : e ∈ es) :
    d.text? e.1 = some none ∨
      ∃ name, d.text? e.1 = some (some name) ∧ (s.part name).isSome := by
  induction h with
  | nil => cases he
  | blank htext _ ih =>
      rcases List.mem_cons.mp he with rfl | he
      · exact .inl htext
      · exact ih hseen he
  | again htext hin _ ih =>
      rcases List.mem_cons.mp he with rfl | he
      · exact .inr ⟨_, htext, hseen _ hin⟩
      · exact ih hseen he
  | unknown _ _ hlenient _ _ => simp [hstrict] at hlenient
  | @part seen e' es a b c name part htext _ hpart _ _ ih =>
      have hknown : (s.part name).isSome := by rw [hpart]; rfl
      rcases List.mem_cons.mp he with rfl | he
      · exact .inr ⟨_, htext, hknown⟩
      · exact ih (Set.forall_mem_insert.mpr ⟨hknown, hseen⟩) he

/-- The parts of a shape other than the one called `name` leave alone what `g` shows of a
record. -/
def Spares (s : Shape α) (name : String) (g : α → β) : Prop :=
  ∀ name' part, name' ≠ name → s.part name' = some part →
    ∀ v a b, Clean (part v a) b → g b = g a

theorem Fills.eq_of_seen {name : String} {g : α → β} (h : s.Fills d seen es a c)
    (hseen : name ∈ seen) (hspares : s.Spares name g) : g c = g a := by
  induction h with
  | nil => rfl
  | blank _ _ ih => exact ih hseen
  | again _ _ _ ih => exact ih hseen
  | unknown _ _ _ _ ih => exact ih (Set.mem_insert_of_mem _ hseen)
  | @part seen e es a b c name' part _ hnew hpart hclean _ ih =>
      have hne : name' ≠ name := fun heq => hnew (heq ▸ hseen)
      exact (ih (Set.mem_insert_of_mem _ hseen)).trans (hspares _ _ hne hpart _ _ _ hclean)

/-- The first entry of a name makes its part. -/
theorem Fills.exists_part {name : String} {part : Node → α → Fit α} {e : Node × Node}
    (h : s.Fills d seen es a c) (hseen : name ∉ seen) (hpart : s.part name = some part)
    (hfind : es.find? (fun e => d.name? e.1 = some name) = some e) :
    ∃ b b', Clean (part e.2 b) b' ∧
      ∀ (β : Type) (g : α → β), s.Spares name g → g b = g a ∧ g b' = g c := by
  induction h with
  | nil => cases hfind
  | blank htext _ ih =>
      rw [List.find?_cons_of_neg (by simp [Document.name?, htext])] at hfind
      exact ih hseen hfind
  | @again seen e' es a c name' htext hin _ ih =>
      have hne : name' ≠ name := fun heq => hseen (heq ▸ hin)
      rw [List.find?_cons_of_neg (by simp [Document.name?, htext, hne])] at hfind
      exact ih hseen hfind
  | @unknown seen e' es a c name' htext hnone _ _ ih =>
      have hne : name' ≠ name := by
        rintro rfl
        simp [hnone] at hpart
      rw [List.find?_cons_of_neg (by simp [Document.name?, htext, hne])] at hfind
      exact ih (by simp [hseen, hne.symm]) hfind
  | @part seen e' es a b c name' part' htext hnew hpart' hclean hrest ih =>
      by_cases hne : name' = name
      · obtain rfl := hne
        rw [List.find?_cons_of_pos (by simp [Document.name?, htext])] at hfind
        obtain rfl := Option.some.inj hfind
        obtain rfl := Option.some.inj (hpart'.symm.trans hpart)
        exact ⟨a, b, hclean, fun β g hspares =>
          ⟨rfl, (hrest.eq_of_seen (Set.mem_insert ..) hspares).symm⟩⟩
      · rw [List.find?_cons_of_neg (by simp [Document.name?, htext, hne])] at hfind
        obtain ⟨b', b'', hclean', hg⟩ := ih (by simp [hseen, Ne.symm hne]) hfind
        refine ⟨b', b'', hclean', fun β g hspares => ?_⟩
        obtain ⟨hbefore, hafter⟩ := hg β g hspares
        exact ⟨hbefore.trans (hspares _ _ hne hpart' _ _ _ hclean), hafter⟩

theorem Filled.exists_part {n v : Node} {r : Option α} {name : String} {part : Node → α → Fit α}
    (h : s.Filled d n r) (hpart : s.part name = some part) (hvalue : d.value? n name = some v) :
    ∃ c b b', r = some c ∧ Clean (part v b) b' ∧
      ∀ (β : Type) (g : α → β), s.Spares name g → g b' = g c := by
  obtain ⟨e, hfind, rfl⟩ := Option.map_eq_some_iff.mp hvalue
  obtain ⟨-, hnone⟩ | ⟨c, rfl, hfills⟩ := h
  · simp [hnone] at hfind
  · obtain ⟨b, b', hclean, hg⟩ := hfills.exists_part (Set.notMem_empty name) hpart hfind
    exact ⟨c, b, b', rfl, hclean, fun β g hspares => (hg β g hspares).2⟩

theorem Filled.named_of_strict {n : Node} {r : Option α} (h : s.Filled d n r)
    (hstrict : s.strict = true) {e : Node × Node} (he : e ∈ d.entries n) :
    d.text? e.1 = some none ∨
      ∃ name, d.text? e.1 = some (some name) ∧ (s.part name).isSome := by
  obtain ⟨-, hnone⟩ | ⟨c, -, hfills⟩ := h
  · simp [hnone] at he
  · exact hfills.named_of_strict hstrict (by simp) he

end Shape
end ClientLoom.Yaml
