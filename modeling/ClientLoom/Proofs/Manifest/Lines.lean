import ClientLoom.Manifest
import ClientLoom.Proofs.Toml.Numerals
import ClientLoom.Proofs.Toml.Strings

/-! # The lines of a manifest

The text of a manifest is read line by line: `Spells` says which literal stands for a value at the
end of a line, and `ReadsAs` which statements a text at the start of a document gives.  A line with
a key is an entry (`readsAs_line`), and the text of a unit is the header of an element and an entry
for each of its keys (`readsAs_entry`).  So the text of a manifest gives the statements of the
manifest (`statements?_encode`). -/

namespace ClientLoom.Manifest

open Toml (Dialect Literal Statement isGap isBareKeyChar literal? items? lines? statement? endLine?
  quoted)
open Text (IsPlain)

variable {d : Dialect} {cs rest text text' value : List Char} {c : Char} {x : Literal}
  {ss ss' : List Statement} {fuel : Nat}

/-! ### Values -/

/-- Whether a text at the end of a line is read as a literal. -/
structure Spells (d : Dialect) (value : List Char) (x : Literal) : Prop where
  first : ∃ c cs, value = c :: cs ∧ isGap c = false
  read : ∀ rest fuel, value.length ≤ fuel →
    literal? d (fuel + 1) (value ++ '\n' :: rest) = some (x, '\n' :: rest)

theorem quoted_append (s : String) (rest : List Char) :
    ∃ cs, quoted s ++ rest = '"' :: cs := ⟨_, List.cons_append⟩

theorem literal?_quoted {s : String} (h : IsPlain s) (hrest : rest.head? ≠ some '"') :
    literal? d (fuel + 1) (quoted s ++ rest) = some (.scalar (.text s), rest) := by
  obtain ⟨cs, hcs⟩ := quoted_append s rest
  have hread := Toml.string?_quoted (d := d) h hrest
  rw [hcs] at hread ⊢
  simp [literal?, hread]

theorem spells_quoted {s : String} (h : IsPlain s) : Spells d (quoted s) (.scalar (.text s)) where
  first := ⟨_, _, rfl, by decide⟩
  read := fun _ _ _ => literal?_quoted h (by simp)

theorem spells_numeral {i : Int} (h : Width.fits i = true) :
    Spells d (numeral i) (.scalar (.integer i)) := by
  obtain ⟨c, cs, hcs, hc⟩ : ∃ c cs, Toml.Scalar.numeral i = c :: cs ∧
      (c = '-' ∨ c.isDigit = true) := by
    unfold Toml.Scalar.numeral
    split
    · obtain ⟨c, cs, hcs⟩ :=
        List.exists_cons_of_ne_nil (Nat.toDigits_ne_nil (b := 10) (n := i.toNat))
      exact ⟨c, cs, hcs,
        .inr (Toml.Scalar.areDigits_toDigits i.toNat c (hcs ▸ List.mem_cons_self))⟩
    · exact ⟨_, _, rfl, .inl rfl⟩
  have hne {y : Char} (hminus : y ≠ '-') (hdigit : y.isDigit = false) : c ≠ y := by
    rintro rfl
    rcases hc with rfl | hc
    · exact hminus rfl
    · rw [hdigit] at hc
      cases hc
  have hread (rest : List Char) : Toml.Scalar.read? d (Toml.Scalar.numeral i ++ '\n' :: rest) =
      some (.integer i, '\n' :: rest) := Toml.Scalar.read?_numeral h
  rw [numeral, Toml.Scalar.toList_toString, hcs]
  rw [hcs] at hread
  refine ⟨⟨c, cs, rfl, ?_⟩, fun rest fuel _ => ?_⟩
  · have hblank : c ≠ ' ' := hne (by decide) (by decide)
    have htab : c ≠ '\t' := hne (by decide) (by decide)
    simp [isGap, hblank, htab]
  · rw [List.cons_append, literal?, ← List.cons_append, hread]
    · rfl
    all_goals exact fun _ heq => hne (by decide) (by decide) (List.cons.inj heq).1

/-! ### Lists of strings -/

theorem dropFiller?_of_head (fuel : Nat) (hgap : isGap c = false) (hmark : c ≠ '#')
    (hbreak : c ≠ '\n') (hreturn : c ≠ '\r') :
    Toml.dropFiller? fuel (c :: cs) = some (c :: cs) := by
  cases fuel with
  | zero => rfl
  | succ fuel => simp [Toml.dropFiller?, hgap, hmark, hbreak, hreturn]

/-- The strings behind the first, each behind a comma. -/
def behindCommas (xs : List String) : List Char := xs.flatMap fun s => ',' :: ' ' :: quoted s

theorem quotedList_cons (s : String) (xs : List String) :
    quotedList (s :: xs) = '[' :: (quoted s ++ (behindCommas xs ++ [']'])) := by
  have hlist (s : String) : (((s :: xs).map quoted).intersperse ", ".toList).flatten =
      quoted s ++ behindCommas xs := by
    induction xs generalizing s with
    | nil => simp [behindCommas]
    | cons t xs ih =>
        rw [List.map_cons, List.map_cons, List.intersperse_cons_cons, List.flatten_cons,
          List.flatten_cons, ← List.map_cons, ih t]
        simp [behindCommas]
  rw [quotedList, hlist, List.cons_append, List.append_assoc]

theorem dropFiller?_quoted (s : String) (rest : List Char) :
    Toml.dropFiller? fuel (quoted s ++ rest) = some (quoted s ++ rest) := by
  obtain ⟨cs, hcs⟩ := quoted_append s rest
  rw [hcs]
  exact dropFiller?_of_head fuel (by decide) (by decide) (by decide) (by decide)

/-- The last string of a list is read up to the bracket. -/
theorem items?_last {s : String} (hs : IsPlain s)
    (hcs : Toml.dropFiller? cs.length cs = some (quoted s ++ ']' :: rest)) :
    items? d (fuel + 2) cs = some ([.scalar (.text s)], rest) := by
  obtain ⟨cs', hcs'⟩ := quoted_append s (']' :: rest)
  have hliteral : literal? d (fuel + 1) (quoted s ++ ']' :: rest) = _ :=
    literal?_quoted hs (by simp)
  have hbehind : Toml.dropFiller? (rest.length + 1) (']' :: rest) = some (']' :: rest) :=
    dropFiller?_of_head _ (by decide) (by decide) (by decide) (by decide)
  rw [hcs'] at hcs hliteral
  simp [items?, hcs, hliteral, hbehind]

/-- Any other string is read up to the comma. -/
theorem items?_comma {s : String} (hs : IsPlain s)
    (hcs : Toml.dropFiller? cs.length cs = some (quoted s ++ ',' :: rest)) :
    items? d (fuel + 2) cs =
      (items? d (fuel + 1) rest).map fun r => (.scalar (.text s) :: r.1, r.2) := by
  obtain ⟨cs', hcs'⟩ := quoted_append s (',' :: rest)
  have hliteral : literal? d (fuel + 1) (quoted s ++ ',' :: rest) = _ :=
    literal?_quoted hs (by simp)
  have hbehind : Toml.dropFiller? (rest.length + 1) (',' :: rest) = some (',' :: rest) :=
    dropFiller?_of_head _ (by decide) (by decide) (by decide) (by decide)
  rw [hcs'] at hcs hliteral
  rw [items?, hcs]
  cases hmore : items? d (fuel + 1) rest <;> simp [hliteral, hbehind, hmore]

theorem items?_behindCommas {s : String} {xs : List String} (hs : IsPlain s)
    (hxs : ∀ s ∈ xs, IsPlain s) (hfuel : xs.length + 1 < fuel)
    (hcs : Toml.dropFiller? cs.length cs = some (quoted s ++ (behindCommas xs ++ ']' :: rest))) :
    items? d fuel cs = some ((s :: xs).map fun s => .scalar (.text s), rest) := by
  induction xs generalizing s fuel cs with
  | nil =>
      obtain ⟨fuel, rfl⟩ : ∃ k, fuel = k + 2 := ⟨fuel - 2, by simp at hfuel; omega⟩
      exact items?_last hs hcs
  | cons t xs ih =>
      obtain ⟨ht, hxs⟩ := List.forall_mem_cons.mp hxs
      obtain ⟨fuel, rfl⟩ : ∃ k, fuel = k + 2 := ⟨fuel - 2, by simp at hfuel; omega⟩
      have hblank (cs : List Char) :
          Toml.dropFiller? (' ' :: (quoted t ++ cs)).length (' ' :: (quoted t ++ cs)) =
            some (quoted t ++ cs) := rfl
      have hcomma : behindCommas (t :: xs) ++ ']' :: rest =
          ',' :: ' ' :: (quoted t ++ (behindCommas xs ++ ']' :: rest)) := by
        simp [behindCommas]
      rw [hcomma] at hcs
      rw [items?_comma hs hcs, ih ht hxs (by simpa using hfuel) (hblank _)]
      rfl

theorem length_le_behindCommas (xs : List String) : xs.length ≤ (behindCommas xs).length := by
  induction xs with
  | nil => exact Nat.le_refl 0
  | cons s xs ih =>
      simp only [behindCommas, List.flatMap_cons, List.length_append, List.length_cons] at ih ⊢
      omega

theorem spells_quotedList {xs : List String} (h : ∀ s ∈ xs, IsPlain s) (hne : xs ≠ []) :
    Spells d (quotedList xs) (.array (xs.map fun s => .scalar (.text s))) := by
  obtain ⟨s, xs, rfl⟩ := List.exists_cons_of_ne_nil hne
  obtain ⟨hs, hxs⟩ := List.forall_mem_cons.mp h
  refine ⟨⟨_, _, rfl, by decide⟩, fun rest fuel hfuel => ?_⟩
  have hlong : xs.length + 1 < fuel := by
    have := length_le_behindCommas xs
    rw [quotedList_cons] at hfuel
    simp only [List.length_cons, List.length_append, quoted] at hfuel
    omega
  have hitems : items? d fuel (quoted s ++ (behindCommas xs ++ ']' :: '\n' :: rest)) =
      some ((s :: xs).map fun s => .scalar (.text s), '\n' :: rest) :=
    items?_behindCommas hs hxs hlong (dropFiller?_quoted s _)
  have hwhole : quotedList (s :: xs) ++ '\n' :: rest =
      '[' :: (quoted s ++ (behindCommas xs ++ ']' :: '\n' :: rest)) := by
    simp [quotedList_cons]
  rw [hwhole, literal?, hitems]
  rfl

/-! ### Statements -/

/-- Whether a text in front of others is read as statements. -/
def ReadsAs (d : Dialect) (text : List Char) (ss : List Statement) : Prop :=
  ∀ rest, lines? d (text ++ rest) = (lines? d rest).map (ss ++ ·)

theorem ReadsAs.nil : ReadsAs d [] [] := by
  intro rest
  simp

theorem ReadsAs.append (h : ReadsAs d text ss) (h' : ReadsAs d text' ss') :
    ReadsAs d (text ++ text') (ss ++ ss') := by
  intro rest
  rw [List.append_assoc, h, h', Option.map_map]
  simp [Function.comp_def]

/-- A line is read on its own when it gives statements up to its end. -/
theorem readsAs_of_statement?
    (h : ∀ rest, statement? d (text ++ '\n' :: rest) = some (ss, '\n' :: rest)) :
    ReadsAs d (text ++ ['\n']) ss := by
  intro rest
  have hend : endLine? ('\n' :: rest) = some rest := rfl
  have hne : (text ++ '\n' :: rest).isEmpty = false := by
    cases text <;> rfl
  have hshort : rest.length < (text ++ '\n' :: rest).length := by
    rw [List.length_append, List.length_cons]
    omega
  rw [List.append_assoc, List.singleton_append, lines?, hne, if_neg Bool.false_ne_true]
  simp only [h rest, hend, dif_pos hshort]

/-- Whether a text is a key without quotes. -/
def IsBareKey (key : String) : Prop := key ≠ "" ∧ ∀ c ∈ key.toList, isBareKeyChar c = true

instance (key : String) : Decidable (IsBareKey key) :=
  decidable_of_iff (key ≠ "" ∧ key.toList.all isBareKeyChar = true) (by simp [IsBareKey])

theorem IsBareKey.exists_cons {key : String} (h : IsBareKey key) :
    ∃ c cs, key.toList = c :: cs ∧ ∀ y, isBareKeyChar y = false → c ≠ y := by
  obtain ⟨hne, hchars⟩ := h
  cases hkey : key.toList with
  | nil => exact absurd (String.toList_eq_nil_iff.mp hkey) hne
  | cons c cs =>
      refine ⟨c, cs, rfl, ?_⟩
      rintro y hy rfl
      rw [hchars c (hkey ▸ List.mem_cons_self)] at hy
      cases hy

theorem key?_bare {key : String} (h : IsBareKey key)
    (hends : ∀ c ∈ (cs.head?), isBareKeyChar c = false) (hrest : cs.dropWhile isGap = rest)
    (hdot : rest.head? ≠ some '.') :
    Toml.key? d (fuel + 1) (key.toList ++ cs) = some ([key], rest) := by
  have htake : (key.toList ++ cs).takeWhile isBareKeyChar = key.toList := by
    rw [List.takeWhile_append_of_pos h.2]
    cases cs with
    | nil => simp
    | cons c cs => simp [hends c rfl]
  have hdrop : (key.toList ++ cs).dropWhile isBareKeyChar = cs := by
    rw [List.dropWhile_append_of_pos h.2]
    cases cs with
    | nil => rfl
    | cons c cs => simp [hends c rfl]
  have hpart : Toml.keyPart? d (key.toList ++ cs) = some (key, cs) := by
    obtain ⟨c, ks, hkey, hc⟩ := h.exists_cons
    have hquote : c ≠ '"' := hc '"' (by decide)
    have hsingle : c ≠ '\'' := hc '\'' (by decide)
    have hnonempty : key.toList.isEmpty = false := by
      rw [hkey]
      rfl
    unfold Toml.keyPart?
    split
    · next heq =>
        rw [hkey] at heq
        exact absurd (List.cons.inj heq).1 hquote
    · next heq =>
        rw [hkey] at heq
        exact absurd (List.cons.inj heq).1 hsingle
    · rw [htake, hdrop]
      simp [hnonempty]
  rw [Toml.key?, hpart]
  simp only [Option.bind_eq_bind, Option.bind_some, hrest]
  split
  · exact absurd rfl hdot
  · rfl

theorem statement?_entry {key : List String} {more rest' : List Char}
    (hdrop : cs.dropWhile isGap = c :: more) (hbracket : c ≠ '[') (hcomment : c ≠ '#')
    (hend : Toml.atLineEnd (c :: more) = false)
    (hkey : Toml.key? d (c :: more).length (c :: more) = some (key, '=' :: rest))
    (hvalue : literal? d (rest.length + 1) (rest.dropWhile isGap) = some (x, rest')) :
    statement? d cs = some ([.entry key x], rest') := by
  rw [statement?, hdrop]
  split
  · next heq => exact absurd (List.cons.inj heq).1 hbracket
  · next heq => exact absurd (List.cons.inj heq).1 hbracket
  · rw [List.length_cons] at hkey
    simp [hend, hcomment, hkey, hvalue]

/-- A line with a key is an entry. -/
theorem readsAs_line {indent key : String} (hindent : ∀ c ∈ indent.toList, isGap c = true)
    (hkey : IsBareKey key) (h : Spells d value x) :
    ReadsAs d (line indent key value) [.entry [key] x] := by
  unfold line
  refine readsAs_of_statement? fun rest => ?_
  obtain ⟨v, vs, hvalue, hv⟩ := h.first
  obtain ⟨c, ks, hks, hc⟩ := hkey.exists_cons
  have hgap : isGap c = false := by simp [isGap, hc ' ' (by decide), hc '\t' (by decide)]
  have hdrop : (indent.toList ++ key.toList ++ " = ".toList ++ value ++ '\n' :: rest).dropWhile
      isGap = c :: (ks ++ ' ' :: '=' :: ' ' :: (value ++ '\n' :: rest)) := by
    rw [List.append_assoc, List.append_assoc, List.append_assoc,
      List.dropWhile_append_of_pos hindent, hks]
    simp [hgap]
  have hread := h.read rest (' ' :: (value ++ '\n' :: rest)).length
    (by simp only [List.length_cons, List.length_append]; omega)
  have hbehind : (' ' :: (value ++ '\n' :: rest)).dropWhile isGap = value ++ '\n' :: rest := by
    rw [hvalue]
    simp [hv, show isGap ' ' = true from rfl]
  have hkeyed (fuel : Nat) : Toml.key? d (fuel + 1)
      (key.toList ++ ' ' :: '=' :: ' ' :: (value ++ '\n' :: rest)) =
        some ([key], '=' :: ' ' :: (value ++ '\n' :: rest)) :=
    key?_bare hkey (by simp [isBareKeyChar]) rfl (by simp)
  rw [hks] at hkeyed
  refine statement?_entry hdrop (hc '[' (by decide)) (hc '#' (by decide)) ?_ (hkeyed _) ?_
  · simp [Toml.atLineEnd, hc '\n' (by decide), hc '\r' (by decide)]
  · rw [hbehind]
    exact hread

/-- A line with a key between double brackets is the header of an element. -/
theorem readsAs_element {key : String} (hkey : IsBareKey key) :
    ReadsAs d ("[[".toList ++ key.toList ++ "]]".toList ++ ['\n']) [.element [key]] := by
  refine readsAs_of_statement? fun rest => ?_
  obtain ⟨c, ks, hks, hc⟩ := hkey.exists_cons
  have hgap : isGap c = false := by simp [isGap, hc ' ' (by decide), hc '\t' (by decide)]
  have hdrop : (key.toList ++ ']' :: ']' :: '\n' :: rest).dropWhile isGap =
      key.toList ++ ']' :: ']' :: '\n' :: rest := by
    rw [hks]
    simp [hgap]
  have hkeyed (fuel : Nat) : Toml.key? d (fuel + 1) (key.toList ++ ']' :: ']' :: '\n' :: rest) =
      some ([key], ']' :: ']' :: '\n' :: rest) :=
    key?_bare hkey (by simp [isBareKeyChar]) rfl (by simp)
  have hwhole : "[[".toList ++ key.toList ++ "]]".toList ++ '\n' :: rest =
      '[' :: '[' :: (key.toList ++ ']' :: ']' :: '\n' :: rest) := by
    simp
  rw [hwhole]
  simp [statement?, show isGap '[' = false from rfl, hdrop, hkeyed]

theorem readsAs_break : ReadsAs d ['\n'] [] := by
  rw [← List.nil_append ['\n']]
  exact readsAs_of_statement? fun _ => rfl

/-! ### Manifests -/

/-- Whether a unit can be written: its texts hold characters only and its number of declarations
fits into 64 bits. -/
structure Entry.IsWritable (e : Entry) : Prop where
  name : IsPlain e.name
  file : IsPlain e.file
  modules : ∀ s ∈ e.modules, IsPlain s
  decls : Width.fits e.decls = true
  sha256 : IsPlain e.sha256

/-- Whether a manifest can be written. -/
structure IsWritable (m : Manifest) : Prop where
  generator : IsPlain m.generator
  version : IsPlain m.version
  units : ∀ e ∈ m.units, e.IsWritable

/-- The keys of a unit with their values. -/
def Entry.fields (e : Entry) : Toml.Table :=
  [("name", .text e.name), ("file", .text e.file)] ++
    ((if e.modules.isEmpty then [] else [("modules", .list (e.modules.map .text))]) ++
      [("decls", .integer e.decls), ("sha256", .text e.sha256)])

/-- The keys of a manifest apart from its units, with their values. -/
def fields (m : Manifest) : Toml.Table :=
  [("generator", .text m.generator)] ++
    (if m.version = "" then [] else [("version", .text m.version)])

/-- A value as it is written, when no table is in it. -/
def literalOf : Toml.Value → Literal
  | .list items => .array (items.map .scalar)
  | v => .scalar v

/-- A key with its value as an entry. -/
def entryOf (kv : String × Toml.Value) : Statement := .entry [kv.1] (literalOf kv.2)

/-- The statements of a unit. -/
def Entry.statements (e : Entry) : List Statement := .element ["unit"] :: e.fields.map entryOf

/-- The statements of a manifest. -/
def statements (m : Manifest) : List Statement :=
  m.fields.map entryOf ++ m.units.flatMap Entry.statements

theorem readsAs_text {indent key s : String} (hindent : ∀ c ∈ indent.toList, isGap c = true)
    (hkey : IsBareKey key) (h : IsPlain s) :
    ReadsAs d (line indent key (quoted s)) [entryOf (key, .text s)] :=
  readsAs_line hindent hkey (spells_quoted h)

theorem readsAs_modules {indent key : String} {xs : List String}
    (hindent : ∀ c ∈ indent.toList, isGap c = true) (hkey : IsBareKey key)
    (h : ∀ s ∈ xs, IsPlain s) :
    ReadsAs d (if xs.isEmpty then [] else line indent key (quotedList xs))
      ((if xs.isEmpty then [] else [(key, .list (xs.map .text))]).map entryOf) := by
  split
  · exact .nil
  · next hne =>
      have hne : xs ≠ [] := fun h => hne (List.isEmpty_iff.mpr h)
      have hlist :
          literalOf (.list (xs.map .text)) = .array (xs.map fun s => .scalar (.text s)) := by
        simp [literalOf]
      have hline := readsAs_line (d := d) hindent hkey (spells_quotedList h hne)
      rwa [← hlist] at hline

/-- The text of a unit gives its header and its keys. -/
theorem readsAs_encode {e : Entry} (h : e.IsWritable) : ReadsAs d e.encode e.statements := by
  have hindent : ∀ c ∈ "  ".toList, isGap c = true := List.all_eq_true.mp (by decide)
  have hname : ReadsAs d (line "  " "name" (quoted e.name)) _ :=
    readsAs_text hindent (by decide) h.name
  have hfile : ReadsAs d (line "  " "file" (quoted e.file)) _ :=
    readsAs_text hindent (by decide) h.file
  have hmodules : ReadsAs d
      (if e.modules.isEmpty then [] else line "  " "modules" (quotedList e.modules)) _ :=
    readsAs_modules hindent (by decide) h.modules
  have hdecls : ReadsAs d (line "  " "decls" (numeral e.decls)) _ :=
    readsAs_line hindent (by decide) (spells_numeral h.decls)
  have hsha : ReadsAs d (line "  " "sha256" (quoted e.sha256)) _ :=
    readsAs_text hindent (by decide) h.sha256
  have hhead : ReadsAs d ("[[".toList ++ "unit".toList ++ "]]".toList ++ ['\n']) _ :=
    readsAs_element (by decide)
  have hall := (((((readsAs_break.append hhead).append hname).append hfile).append
    hmodules).append hdecls).append hsha
  unfold Entry.encode
  simpa [Entry.statements, Entry.fields, entryOf, literalOf] using hall

theorem readsAs_units {units : List Entry} (h : ∀ e ∈ units, e.IsWritable) :
    ReadsAs d (units.flatMap Entry.encode) (units.flatMap Entry.statements) := by
  induction units with
  | nil => exact .nil
  | cons e units ih =>
      obtain ⟨he, hunits⟩ := List.forall_mem_cons.mp h
      exact (readsAs_encode he).append (ih hunits)

theorem readsAs_version {indent s : String} (hindent : ∀ c ∈ indent.toList, isGap c = true)
    (h : IsPlain s) :
    ReadsAs d (if s = "" then [] else line indent "version" (quoted s))
      ((if s = "" then [] else [("version", .text s)]).map entryOf) := by
  split
  · exact .nil
  · exact readsAs_text hindent (by decide) h

/-- The text of a manifest gives its statements. -/
theorem statements?_encode {m : Manifest} (h : m.IsWritable) :
    Toml.statements? d m.encode = some m.statements := by
  have hindent : ∀ c ∈ "".toList, isGap c = true := List.all_eq_true.mp (by decide)
  have hgenerator : ReadsAs d (line "" "generator" (quoted m.generator)) _ :=
    readsAs_text hindent (by decide) h.generator
  have hall := (hgenerator.append (readsAs_version hindent h.version)).append
    (readsAs_units h.units)
  have htext : m.encode.toList = line "" "generator" (quoted m.generator) ++
      (if m.version = "" then [] else line "" "version" (quoted m.version)) ++
      m.units.flatMap Entry.encode := String.toList_ofList
  obtain ⟨cs, hcs⟩ : ∃ cs, m.encode.toList = 'g' :: cs := ⟨_, htext⟩
  have hread := hall []
  rw [List.append_nil, ← htext] at hread
  rw [Toml.statements?, hcs]
  have hmark : (('g' :: cs).head? = some '\uFEFF') = False := by
    rw [List.head?_cons, Option.some.injEq, eq_iff_iff, iff_false]
    decide
  rw [hcs] at hread
  simp only [hmark, decide_false, Bool.and_false, Bool.false_eq_true, if_false, hread]
  simp [lines?, statements, fields]

end ClientLoom.Manifest
