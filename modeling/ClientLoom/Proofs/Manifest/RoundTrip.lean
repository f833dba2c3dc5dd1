import ClientLoom.Proofs.Manifest.Lines

/-! # Manifests that are written and read again

The statements of a manifest define its tables one key at a time: `Section` says where the keys of
the current section go, and a new key goes behind those that are there (`Section.add?`).  So a
manifest is read from its text as it was (`decode?_encode`), whatever its names and its version are,
as long as they hold characters only and its numbers fit into 64 bits. -/

namespace ClientLoom

namespace Toml

variable {α : Type} {name : String} {x : Item α} {es : Items α}

/-! ### Tables -/

theorem Items.lookup_of_not_mem (h : name ∉ es.map Prod.fst) : es.lookup name = none := by
  rw [List.lookup_eq_none_iff]
  intro e he
  rw [bne_iff_ne]
  exact fun heq => h (List.mem_map.mpr ⟨e, he, heq.symm⟩)

theorem Items.lookup_append_singleton (h : name ∉ es.map Prod.fst) :
    (es ++ [(name, x)]).lookup name = some x := by
  rw [List.lookup_append, lookup_of_not_mem h]
  simp

/-- A part with a new name goes behind the others. -/
theorem Items.update_of_not_mem {f : Option (Item α) → Option (Item α)}
    (h : name ∉ es.map Prod.fst) :
    Items.update name f es = (f none).map fun x => es ++ [(name, x)] := by
  rw [Items.update, lookup_of_not_mem h]

/-- A part that stands last is changed in its place. -/
theorem Items.update_append_singleton {f : Option (Item α) → Option (Item α)}
    (h : name ∉ es.map Prod.fst) :
    Items.update name f (es ++ [(name, x)]) = (f (some x)).map fun y => es ++ [(name, y)] := by
  have hothers (y : Item α) : (es.map fun e => if e.1 == name then (name, y) else e) = es := by
    conv_rhs => rw [← List.map_id es]
    refine List.map_congr_left fun e he => if_neg ?_
    rw [beq_iff_eq]
    exact fun heq => h (List.mem_map.mpr ⟨e, he, heq⟩)
  rw [Items.update, lookup_append_singleton h]
  simp only [List.map_append, hothers, List.map_cons, List.map_nil, beq_self_eq_true, if_true]

theorem Items.toTable_append (es es' : Items α) :
    Items.toTable (es ++ es') = Items.toTable es ++ Items.toTable es' := by
  induction es with
  | nil => rfl
  | cons e es ih =>
      obtain ⟨name, x⟩ := e
      rw [List.cons_append, Items.toTable, ih, Items.toTable, List.cons_append]

theorem Items.toTable_values (t : Table) :
    Items.toTable (t.map fun kv => (kv.1, (Item.value kv.2 : Item α))) = t := by
  induction t with
  | nil => rfl
  | cons kv t ih => rw [List.map_cons, Items.toTable, ih, Items.toValue]

theorem Items.toTables_eq (ts : List (Items α)) (done : List Value) :
    Items.toTables ts done = (ts.reverse.map fun t => .table (Items.toTable t)) ++ done := by
  induction ts generalizing done with
  | nil => rfl
  | cons t ts ih =>
      rw [Items.toTables, ih]
      simp

end Toml

namespace Manifest

open Toml (Items Item Draft Value)

variable {d : Draft} {place : Items Unit → Items Unit} {es root : Items Unit} {name : String}
  {v : Value}

/-! ### Sections -/

/-- Where the keys of a section go: the document with the given parts in that section. -/
structure Places (header : List String) (place : Items Unit → Items Unit) : Prop where
  under : ∀ es, Items.under? header (place es) = some es
  put : ∀ name x es, name ∉ es.map Prod.fst →
    Items.put name x header (place es) = some (place (es ++ [(name, x)]))

theorem places_root : Places [] id where
  under := fun _ => rfl
  put := fun _ _ _ h => by
    rw [Items.put, id, Toml.Items.update_of_not_mem h]
    rfl

/-- The document with the given parts in its last unit. -/
def inLastUnit (root : Items Unit) (before : List (Items Unit)) (es : Items Unit) : Items Unit :=
  root ++ [("unit", .tables es before)]

theorem places_lastUnit (hroot : "unit" ∉ root.map Prod.fst) (before : List (Items Unit)) :
    Places ["unit"] (inLastUnit root before) where
  under := fun es => by
    rw [Items.under?, inLastUnit, Toml.Items.lookup_append_singleton hroot]
    rfl
  put := fun name x es h => by
    rw [Items.put, inLastUnit, Toml.Items.update_append_singleton hroot]
    simp only [Items.put]
    rw [Toml.Items.update_of_not_mem h]
    rfl

/-- A draft whose current section has the given parts. -/
structure Section (d : Draft) (place : Items Unit → Items Unit) (es : Items Unit) : Prop where
  places : Places d.header place
  items : d.items = place es

theorem readItems_scalars (context : List String) (items : List Value) (d : Draft) :
    Draft.readItems context name (items.map .scalar) d = some (items, d) := by
  induction items with
  | nil => rfl
  | cons v items ih =>
      rw [List.map_cons, Draft.readItems, Draft.read]
      simp [ih]

/-- Reading a written value leaves what is defined as it is. -/
theorem read_literalOf (context : List String) (name : String) (v : Value) (d : Draft) :
    ∃ d', Draft.read context name false (literalOf v) d = some (v, d') ∧
      d'.items = d.items ∧ d'.header = d.header := by
  cases v with
  | list items =>
      refine ⟨d.noteArray true (Draft.notedPath context name), ?_, rfl, rfl⟩
      rw [literalOf, Draft.read, readItems_scalars]
      rfl
  | _ => exact ⟨d, rfl, rfl, rfl⟩

/-- A new key goes behind those of its section. -/
theorem Section.add? (h : Section d place es) (hname : name ∉ es.map Prod.fst) :
    ∃ d', d.add? (entryOf (name, v)) = some d' ∧ d'.header = d.header ∧
      Section d' place (es ++ [(name, .value v)]) := by
  obtain ⟨d₁, hread, hitems, hheader⟩ := read_literalOf d.header name v d
  have hunder : Items.under? d.header d₁.items = some es := by
    rw [hitems, h.items, h.places.under]
  have hput : Items.put name (.value v) d.header d₁.items =
      some (place (es ++ [(name, .value v)])) := by
    rw [hitems, h.items, h.places.put name _ es hname]
  have hnew : es.any (·.1 == name) = false := by
    rw [List.any_eq_false]
    intro e he
    rw [beq_iff_eq]
    exact fun heq => hname (List.mem_map.mpr ⟨e, he, heq⟩)
  have hdefine : d₁.define d.header name (.value v) =
      some { d₁ with items := place (es ++ [(name, .value v)]) } := by
    rw [Draft.define, hunder]
    simp [hnew, Draft.put, hput]
  refine ⟨({ d₁ with items := place (es ++ [(name, .value v)]) } : Draft).noteArray
    (Draft.isArray (literalOf v)) (Draft.notedPath d.header name), ?_, hheader, ?_, rfl⟩
  · rw [entryOf, Draft.add?]
    simp [Draft.openKey, hread, hdefine]
  · show Places d₁.header place
    rw [hheader]
    exact h.places

/-- The parts of a table whose values are complete. -/
def partsOf (t : Toml.Table) : Items Unit := t.map fun kv => (kv.1, .value kv.2)

/-- The entries of a table go into the section one by one. -/
theorem Section.addAll? {t : Toml.Table} (h : Section d place es)
    (hnodup : (es.map Prod.fst ++ t.map Prod.fst).Nodup) :
    ∃ d', (t.map entryOf).foldlM Draft.add? d = some d' ∧ d'.header = d.header ∧
      Section d' place (es ++ partsOf t) := by
  induction t generalizing d es with
  | nil => exact ⟨d, rfl, rfl, by simpa [partsOf] using h⟩
  | cons kv t ih =>
      obtain ⟨name, v⟩ := kv
      rw [List.map_cons, List.append_cons] at hnodup
      have hname : name ∉ es.map Prod.fst := by
        have hfront := (List.nodup_append.mp (List.nodup_append.mp hnodup).1).2.2
        exact fun hmem => hfront name hmem name List.mem_cons_self rfl
      obtain ⟨d₁, hadd, hheader, hsection⟩ := h.add? hname (v := v)
      obtain ⟨d', hrest, hheader', hsection'⟩ := ih hsection (by simpa using hnodup)
      refine ⟨d', ?_, hheader'.trans hheader, ?_⟩
      · rw [List.map_cons, List.foldlM_cons, hadd]
        exact hrest
      · simpa [partsOf] using hsection'

/-- The array of the units so far, the last one first. -/
def unitsPart : List (Items Unit) → Items Unit
  | [] => []
  | last :: before => [("unit", .tables last before)]

theorem toTable_unitsPart {ts : List (Items Unit)} (h : ts ≠ []) :
    Items.toTable (unitsPart ts) =
      [("unit", .list (ts.reverse.map fun t => .table (Items.toTable t)))] := by
  obtain ⟨last, before, rfl⟩ := List.exists_cons_of_ne_nil h
  simp [unitsPart, Items.toTable, Items.toValue, Toml.Items.toTables_eq]

/-- The header of a unit opens a section behind the units so far. -/
theorem openUnit {units : List (Items Unit)} (hroot : "unit" ∉ root.map Prod.fst)
    (hitems : d.items = root ++ unitsPart units) :
    ∃ d', d.add? (.element ["unit"]) = some d' ∧ d'.header = ["unit"] ∧
      Section d' (inLastUnit root units) [] := by
  have hopen : d.openElement ["unit"] = some { d with items := inLastUnit root units [] } := by
    cases units with
    | nil =>
        rw [unitsPart, List.append_nil] at hitems
        have hlookup := Toml.Items.lookup_of_not_mem hroot
        have hput (x : Item Unit) : Items.put "unit" x [] root = some (root ++ [("unit", x)]) := by
          rw [Items.put, Toml.Items.update_of_not_mem hroot]
          rfl
        simp [Draft.openElement, Draft.openWay, Items.under?, Draft.put, hitems, hlookup, hput,
          inLastUnit]
    | cons last before =>
        rw [unitsPart] at hitems
        have hlookup : (root ++ [("unit", (.tables last before : Item Unit))]).lookup "unit" = _ :=
          Toml.Items.lookup_append_singleton hroot
        have hput (x : Item Unit) :
            Items.put "unit" x [] (root ++ [("unit", .tables last before)]) =
              some (root ++ [("unit", x)]) := by
          rw [Items.put, Toml.Items.update_append_singleton hroot]
          rfl
        simp only [Draft.openElement, List.dropLast_singleton, Draft.openWay, Items.under?,
          Option.bind_eq_bind, Option.bind_some, hitems, List.getLastD_cons, List.getLastD_nil,
          hlookup, Draft.put, hput, Option.map_some, inLastUnit]
  refine ⟨{ ({ d with items := inLastUnit root units [] } : Draft).noteArray false ["unit"] with
    header := ["unit"] }, ?_, rfl, places_lastUnit hroot units, rfl⟩
  rw [Draft.add?, hopen]
  rfl

theorem nodup_fields (e : Entry) : (e.fields.map Prod.fst).Nodup := by
  unfold Entry.fields
  split <;> simp

/-- The statements of units put their tables behind those so far. -/
theorem addUnits? (units : List Entry) {before : List (Items Unit)}
    (hroot : "unit" ∉ root.map Prod.fst) (hitems : d.items = root ++ unitsPart before) :
    ∃ d', (units.flatMap Entry.statements).foldlM Draft.add? d = some d' ∧
      d'.items = root ++ unitsPart ((units.map fun e => partsOf e.fields).reverse ++ before) := by
  induction units generalizing d before with
  | nil => exact ⟨d, rfl, hitems⟩
  | cons e units ih =>
      obtain ⟨d₁, hopen, -, hsection⟩ := openUnit hroot hitems
      obtain ⟨d₂, hadd, -, hsection₂⟩ := hsection.addAll? (by simpa using nodup_fields e)
      have hitems₂ : d₂.items = root ++ unitsPart (partsOf e.fields :: before) := hsection₂.items
      obtain ⟨d', hrest, hitems'⟩ := ih hitems₂
      refine ⟨d', ?_, ?_⟩
      · rw [List.flatMap_cons, List.foldlM_append, Entry.statements, List.foldlM_cons, hopen]
        simp only [Option.bind_eq_bind, Option.bind_some, hadd]
        exact hrest
      · rw [hitems', List.map_cons, List.reverse_cons, List.append_assoc]
        rfl

/-- The array of the units of a manifest, unless there are none. -/
def unitsOf (m : Manifest) : Toml.Table :=
  if m.units.isEmpty then [] else [("unit", .list (m.units.map fun e => .table e.fields))]

/-- The statements of a manifest define its keys and its units. -/
theorem table?_statements (m : Manifest) :
    Draft.table? m.statements = some (m.fields ++ m.unitsOf) := by
  have hfields : (m.fields.map Prod.fst).Nodup ∧ "unit" ∉ (partsOf m.fields).map Prod.fst := by
    unfold fields partsOf
    split <;> simp
  have hstart : Section ({} : Draft) id [] := ⟨places_root, rfl⟩
  obtain ⟨d₁, hadd, -, hsection⟩ := hstart.addAll? (by simpa using hfields.1)
  have hitems : d₁.items = partsOf m.fields ++ unitsPart [] := by
    simpa [unitsPart] using hsection.items
  obtain ⟨d₂, hunits, hitems₂⟩ := addUnits? m.units hfields.2 hitems
  have hvalue : Items.toTable (unitsPart ((m.units.map fun e => partsOf e.fields).reverse)) =
      m.unitsOf := by
    unfold unitsOf
    split
    · next hnil =>
        rw [List.isEmpty_iff.mp hnil]
        rfl
    · next hne =>
        rw [toTable_unitsPart (by simpa using hne), List.reverse_reverse, List.map_map]
        simp [Function.comp_def, partsOf, Toml.Items.toTable_values]
  rw [Draft.table?, statements, List.foldlM_append, hadd]
  simp only [Option.bind_eq_bind, Option.bind_some, hunits, Option.map_some, hitems₂,
    Toml.Items.toTable_append, List.append_nil, hvalue]
  rw [partsOf, Toml.Items.toTable_values]

/-! ### Keys -/

theorem foldKey_fixed : ∀ key ∈ ["generator", "version", "unit", "name", "file", "modules", "decls",
    "sha256"], Text.foldKey key = key := by
  decide +kernel

theorem mapM_textOf? (xs : List String) : (xs.map Value.text).mapM textOf? = some xs := by
  induction xs with
  | nil => rfl
  | cons s xs ih => simp [ih, textOf?]

/-- A unit is read from its keys. -/
theorem entryOf?_fields (e : Entry) : entryOf? (.table e.fields) = some e := by
  obtain ⟨name, file, modules, decls, sha256⟩ := e
  have hkeys := foldKey_fixed
  simp only [List.forall_mem_cons] at hkeys
  obtain ⟨-, -, -, hname, hfile, hmodules, hdecls, hsha, -⟩ := hkeys
  have hlist : textsOf? (.list (modules.map .text)) = some modules := mapM_textOf? modules
  rw [entryOf?, Entry.fields]
  split
  · next hnil =>
      obtain rfl : modules = [] := List.isEmpty_iff.mp hnil
      simp [Entry.set?, hname, hfile, hdecls, hsha, textOf?]
  · simp [Entry.set?, hname, hfile, hmodules, hdecls, hsha, textOf?, hlist]

/-- A manifest is read from its keys. -/
theorem foldlM_set? (m : Manifest) : (m.fields ++ m.unitsOf).foldlM set? {} = some m := by
  obtain ⟨generator, version, units⟩ := m
  have hkeys := foldKey_fixed
  simp only [List.forall_mem_cons] at hkeys
  obtain ⟨hgenerator, hversion, hunit, -⟩ := hkeys
  have hentries : (units.map fun e => Value.table e.fields).mapM entryOf? = some units := by
    induction units with
    | nil => rfl
    | cons e units ih => simp [ih, entryOf?_fields]
  have hunits (m : Manifest) (hm : m.units = []) :
      (unitsOf ⟨generator, version, units⟩).foldlM set? m = some { m with units := units } := by
    unfold unitsOf
    split
    · next hnil =>
        obtain rfl : units = [] := List.isEmpty_iff.mp hnil
        rw [← hm]
        rfl
    · simp [set?, hunit, hentries]
  have hfields : (fields ⟨generator, version, units⟩).foldlM set? {} =
      some { generator := generator, version := version } := by
    unfold fields
    dsimp only
    split
    · next hempty => simp [set?, hgenerator, textOf?, hempty]
    · simp [set?, hgenerator, hversion, textOf?]
  rw [List.foldlM_append, hfields]
  exact hunits _ rfl

/-- A manifest is read from its text as it was. -/
theorem decode?_encode {m : Manifest} (h : m.IsWritable) : decode? m.encode = some m := by
  rw [decode?, Toml.parse?, statements?_encode h]
  show (Draft.table? m.statements).bind _ = _
  rw [table?_statements, Option.bind_some, foldlM_set?]

end Manifest
end ClientLoom
