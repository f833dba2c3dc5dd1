import ClientLoom.Proofs.Dump.Accepting
import ClientLoom.Proofs.Dump.Parts

/-! # Unknown keys

The schema gives every mapping of a dump a place: that of the document, of a declaration, of an
expression and so on.  `Reads d p n` says that the node `n` is read at the place `p`, however deep,
through aliases and merge keys; `Known d p n` that all its keys are keys of that place.

Main statement: of an accepted dump, every mapping that is read at a strict place has known keys
only (`keys_known`).  The places that are not strict are the statements, bindings and entries of
struct literals inside expressions: what they do not know they pass over
(`unknown_keys_accepted`). -/

namespace ClientLoom.Dump

open Yaml (Node Document Fit Shape)
open Yaml.Fit (Clean IfAny)

/-! ### Places -/

/-- How a statement is read. -/
inductive StmtUse where
  /-- in the body of a function -/
  | body
  /-- inside an expression -/
  | nested
  /-- in a body that is not decoded -/
  | kept
  deriving DecidableEq, Repr

/-- Where a mapping stands in a dump. -/
inductive Place where
  | file
  | decl (use : DeclUse)
  | field
  | variant
  | param
  | stmt (use : StmtUse)
  | binding (use : StmtUse)
  /-- an entry of a struct literal -/
  | init
  | expr
  /-- the parts of an expression of a kind that has the given keys -/
  | parts (keys : List String)
  deriving DecidableEq, Repr

namespace Place

/-- The keys of a place; those of an expression are the kinds of expressions. -/
def keys : Place → List String
  | file => ["module", "attrs", "decls"]
  | decl _ =>
      ["use", "struct", "enum", "impl", "fn", "opaque", "mod", "pub", "attrs", "alias", "glob",
        "fields", "variants", "trait", "fns", "async", "self", "params", "returns", "body"]
  | field => ["name", "type", "pub", "attrs"]
  | variant => ["name", "types", "attrs"]
  | param => ["name", "mut", "pat", "type"]
  | stmt _ => ["let", "expr", "tail", "semi"]
  | binding _ => ["pat", "type", "value"]
  | init => ["name", "value"]
  | expr => exprKinds
  | parts keys => keys

/-- Whether unknown keys are refused at a place. -/
def isStrict : Place → Bool
  | stmt .nested => false
  | binding .nested => false
  | init => false
  | _ => true

end Place

/-- Where the value of a key is read: at one place, or its items at one place each. -/
inductive Target where
  | one (p : Place)
  | each (p : Place)
  deriving DecidableEq, Repr

/-- Whether a mapping names something under a key. -/
def Named (d : Document) (n : Node) (key : String) : Bool :=
  ((d.value? n key).bind d.name?).any (· ≠ "")

/-- Where the values in a declaration are read. -/
def declTarget? (d : Document) (n : Node) (use : DeclUse) : String → Option Target
  | "fields" => some (.each .field)
  | "variants" => some (.each .variant)
  | "params" => some (.each .param)
  | "fns" => some (.each (.decl (if use = .top ∧ Named d n "impl" then .member else .kept)))
  | "body" =>
      some (.each (.stmt
        (if use = .member ∨ use = .top ∧ Named d n "fn" then .body else .kept)))
  | _ => none

/-- Where the values in a statement are read. -/
def stmtTarget? (use : StmtUse) : String → Option Target
  | "let" => some (.one (.binding use))
  | "expr" => if use = .kept then none else some (.one .expr)
  | "tail" => if use = .kept then none else some (.one .expr)
  | _ => none

/-- Where the value of an expression of some kind is read. -/
def kindTarget? (kind : String) : Option Target :=
  match kind with
  | "ref" => some (.one .expr)
  | "refmut" => some (.one .expr)
  | "try" => some (.one .expr)
  | "block" => some (.each (.stmt .nested))
  | kind => (partKeys? kind).map fun keys => .one (.parts keys)

/-- Where the parts of an expression are read. -/
def partTarget? : String → Option Target
  | "of" => some (.one .expr)
  | "base" => some (.one .expr)
  | "fn" => some (.one .expr)
  | "value" => some (.one .expr)
  | "cond" => some (.one .expr)
  | "args" => some (.each .expr)
  | "fields" => some (.each .init)
  | "then" => some (.each (.stmt .nested))
  | "else" => some (.each (.stmt .nested))
  | _ => none

/-- Where the value of a key is read. -/
def Place.target? (d : Document) (n : Node) : Place → String → Option Target
  | .file, name => if name = "decls" then some (.each (.decl .top)) else none
  | .decl use, name => declTarget? d n use name
  | .stmt use, name => stmtTarget? use name
  | .binding use, name => if name = "value" ∧ use ≠ .kept then some (.one .expr) else none
  | .init, name => if name = "value" then some (.one .expr) else none
  | .expr, name => kindTarget? name
  | .parts keys, name => if name ∈ keys then partTarget? name else none
  | _, _ => none

/-- The entries of a mapping as they are written. -/
def written (d : Document) (n : Node) : List (Node × Node) :=
  match d.resolve n with
  | .mapping _ _ es => es
  | _ => []

/-- The value that a mapping has for a key.  The key of an expression goes by the text that it is
written with, so an alias by the name of its anchor. -/
def Place.value? (d : Document) (n : Node) : Place → String → Option Node
  | .expr, name => ((written d n).find? fun e => e.1.ownText = name).map (·.2)
  | _, name => d.value? n name

/-- What a part of a record asks for as an expression may say that it is nothing. -/
def Stands (d : Document) (p q : Place) (v : Node) : Prop :=
  q = .expr → p = .expr ∨ (d.resolve v).isNull = false

/-- The node is read at the place. -/
inductive Reads (d : Document) : Place → Node → Prop where
  | root {n : Node} : d.root = some n → Reads d .file n
  | value {p q : Place} {n v : Node} {name : String} :
      Reads d p n → p.value? d n name = some v → p.target? d n name = some (.one q) →
        Stands d p q v → Reads d q v
  | item {p q : Place} {n v m : Node} {name : String} :
      Reads d p n → p.value? d n name = some v → p.target? d n name = some (.each q) →
        m ∈ (d.resolve v).items → Stands d p q m → Reads d q m

/-- Whether a key is one of the place, where a key that is nothing does not count.  The keys of an
expression and of its parts go by the text that they are written with. -/
def Place.knows (d : Document) (k : Node) : Place → Bool
  | .expr => exprKinds.contains k.ownText
  | .parts keys => keys.contains k.ownText
  | p =>
      match d.text? k with
      | some none => true
      | some (some name) => p.keys.contains name
      | none => false

/-- The entries of a mapping, and those that merge keys bring to it. -/
def Place.entries (d : Document) (n : Node) : Place → List (Node × Node)
  | .expr => written d n
  | .parts _ => written d n
  | _ => d.entries n

/-- All keys are keys of the place. -/
def Known (d : Document) (p : Place) (n : Node) : Prop :=
  ∀ e ∈ p.entries d n, p.knows d e.1 = true

instance (d : Document) (p : Place) (n : Node) : Decidable (Known d p n) :=
  inferInstanceAs (Decidable (∀ e ∈ p.entries d n, p.knows d e.1 = true))

instance (d : Document) (p q : Place) (v : Node) : Decidable (Stands d p q v) :=
  inferInstanceAs (Decidable (q = .expr → p = .expr ∨ (d.resolve v).isNull = false))

/-! ### Finding places -/

/-- Goes from a node to one that is read under it, by keys and the numbers of items. -/
def follow (d : Document) : Place → Node → List (String × Nat) → Option (Place × Node)
  | p, n, [] => some (p, n)
  | p, n, (name, i) :: rest =>
      match p.value? d n name, p.target? d n name with
      | some v, some (.one q) => if Stands d p q v then follow d q v rest else none
      | some v, some (.each q) =>
          match (d.resolve v).items[i]? with
          | some m => if Stands d p q m then follow d q m rest else none
          | none => none
      | _, _ => none

theorem reads_of_follow {d : Document} {p q : Place} {n m : Node} {path : List (String × Nat)}
    (hp : Reads d p n) (h : follow d p n path = some (q, m)) : Reads d q m := by
  induction path generalizing p n with
  | nil =>
      obtain ⟨rfl, rfl⟩ := Prod.mk.inj (Option.some.inj h)
      exact hp
  | cons step path ih =>
      obtain ⟨name, i⟩ := step
      unfold follow at h
      split at h
      · next v q' hvalue htarget =>
        split at h
        · next hstands => exact ih (.value hp hvalue htarget hstands) h
        · cases h
      · next v q' hvalue htarget =>
        split at h
        · next m' hitem =>
          split at h
          · next hstands =>
            exact ih (.item hp hvalue htarget (List.mem_of_getElem? hitem) hstands) h
          · cases h
        · cases h
      · cases h

/-- Whether a node is read at a place that is found by keys and the numbers of items, and all its
keys are known there or not. -/
def finds (d : Document) (path : List (String × Nat)) (p : Place) (known : Bool) : Bool :=
  (d.root.bind fun r => follow d .file r path).any fun x => x.1 = p ∧ decide (Known d p x.2) = known

theorem exists_of_finds {d : Document} {path : List (String × Nat)} {p : Place} {known : Bool}
    (h : finds d path p known = true) :
    ∃ n, Reads d p n ∧ decide (Known d p n) = known := by
  obtain ⟨⟨q, n⟩, hfollow, hfound⟩ := (Option.any_eq_true _ _).mp h
  obtain ⟨r, hr, hfollow⟩ := Option.bind_eq_some_iff.mp hfollow
  obtain ⟨rfl, hknown⟩ := of_decide_eq_true hfound
  exact ⟨n, reads_of_follow (.root hr) hfollow, hknown⟩

/-! ### What acceptance means at a place -/

/-- The expression at a node is decoded. -/
def Decodes (d : Document) (n : Node) : Prop := ∃ depth e, exprWithin d depth n = .ok e

/-- What is known of a node that is read at a place of an accepted dump: the schema reads it without
a flaw, and as far as it is decoded, the expressions in it are. -/
def Sound (d : Document) : Place → Node → Prop
  | .file, n => ∃ r, Clean ((fileShape d).read d n) r ∧
      ∀ f ∈ r, ∀ x ∈ f.decls, x.DecodedIn (Decodes d) .top
  | .decl use, n => ∃ fuel r, Clean ((declShape d (readDecl d fuel)).read d n) r ∧
      ∀ f ∈ r, f.DecodedIn (Decodes d) use
  | .field, n => ∃ r, Clean ((fieldShape d).read d n) r
  | .variant, n => ∃ r, Clean ((variantShape d).read d n) r
  | .param, n => ∃ r, Clean ((paramShape d).read d n) r
  | .stmt use, n => ∃ r, Clean ((stmtShape d (use ≠ .nested)).read d n) r ∧
      ∀ s ∈ r, use ≠ .kept → s.Within (Decodes d)
  | .binding use, n => ∃ r, Clean ((letShape d (use ≠ .nested)).readMaybe d n) r ∧
      ∀ b ∈ r, use ≠ .kept → IfAny (Decodes d) b.value
  | .init, n => ∃ r, Clean ((initShape d).read d n) r ∧ ∀ i ∈ r, IfAny (Decodes d) i.value
  | .expr, n => Decodes d (d.resolve n)
  | .parts keys, n => (∃ kind, partKeys? kind = some keys) ∧
      ∃ parts, partsOf d keys n = .ok parts ∧ ∀ name ∈ keys, parts.PartIn (Decodes d) name

section steps

variable {d : Document} {n v m : Node} {name : String}

theorem exists_of_decodes (h : Decodes d n) : ∃ depth line tag k v e,
    n = .mapping line tag [(k, v)] ∧ kindOf d (exprWithin d depth) k.ownText v = .ok e := by
  obtain ⟨depth, e, h⟩ := h
  cases depth with
  | zero => cases h
  | succ depth =>
      change exprStep d (exprWithin d depth) n = .ok e at h
      unfold exprStep at h
      split at h
      · next line tag k v => exact ⟨depth, line, tag, k, v, e, rfl, locate_eq_ok_iff.mp h⟩
      · cases h

theorem resolve_of_decodes (h : Decodes d n) : d.resolve n = n := by
  obtain ⟨depth, line, tag, k, v, e, rfl, -⟩ := exists_of_decodes h
  rfl

theorem clean_of_fitting {α : Type} {what : String} {x : Fit α} {a : α}
    (h : fitting what x = .ok a) : Clean x a := by
  unfold fitting Fit.result at h
  cases hrun : x {} with
  | error e =>
      rw [hrun] at h
      cases e <;> cases h
  | ok p =>
      obtain ⟨b, t⟩ := p
      rw [hrun] at h
      dsimp only at h
      split at h
      · next c hc =>
        split at hc
        · cases hc
        · next hflawed =>
          obtain rfl := (Except.ok.inj hc).trans (Except.ok.inj h)
          exact ⟨_, _, hrun, Bool.eq_false_of_not_eq_true hflawed, rfl⟩
      all_goals cases h

theorem sound_of_readDecl {use : DeclUse} {fuel : Nat} {x : Option DeclDoc}
    (h : Clean (readDecl d fuel m) x) (hx : ∀ f ∈ x, f.DecodedIn (Decodes d) use) :
    Sound d (.decl use) m := by
  cases fuel with
  | zero =>
      obtain ⟨t, t', hrun, -⟩ := h
      cases hrun
  | succ fuel => exact ⟨fuel, x, h, hx⟩

/-! ### The document and its declarations -/

theorem sound_of_file (h : Sound d .file n) (hvalue : d.value? n "decls" = some v)
    (hm : m ∈ (d.resolve v).items) : Sound d (.decl .top) m := by
  obtain ⟨r, hclean, hdecls⟩ := h
  obtain ⟨c, b, b', rfl, hpart, hshow⟩ :=
    (Shape.fills_of_read (regular_fileShape d) hclean).exists_part rfl hvalue
  obtain ⟨x, xs, hx, rfl, hmem⟩ := exists_item (steady_readDecl d.depth) hpart hm
  have hxs : xs = c.decls := hshow _ FileDoc.decls (spares_fileShape d)
  exact sound_of_readDecl hx fun f hf => hdecls c rfl f (hxs ▸ hmem f hf)

section decl

variable {use : DeclUse}

/-- A text in a declaration that names something is not empty. -/
theorem ne_empty_of_named {fuel : Nat} {r : Option DeclDoc} {key : String} {c : DeclDoc}
    {set : DeclDoc → String → DeclDoc} {get : DeclDoc → String}
    (hclean : Clean ((declShape d (readDecl d fuel)).read d n) r) (hc : r = some c)
    (hpart : (declShape d (readDecl d fuel)).part key = some (textPart d set))
    (hget : ∀ a s, get (set a s) = s)
    (hspares : (declShape d (readDecl d fuel)).Spares key get) (hnamed : Named d n key = true) :
    get c ≠ "" := by
  obtain ⟨s, hs, hne⟩ := (Option.any_eq_true _ _).mp hnamed
  obtain ⟨v, hvalue, hname⟩ := Option.bind_eq_some_iff.mp hs
  obtain ⟨c', b, b', rfl, hclean', hshow⟩ :=
    (Shape.fills_of_read (regular_declShape (steady_readDecl fuel)) hclean).exists_part hpart hvalue
  obtain rfl := Option.some.inj hc
  obtain ⟨_, ⟨x, hx, rfl⟩, -⟩ := (ensures_textPart v b).of_clean hclean'
  obtain rfl : x = some s := by
    rw [Document.name?_eq_some_iff.mp hname] at hx
    exact (Option.some.inj hx).symm
  rw [← hshow _ get hspares]
  simpa [hget] using hne

theorem sound_of_fns (h : Sound d (.decl use) n) (hvalue : d.value? n "fns" = some v)
    (hm : m ∈ (d.resolve v).items) :
    Sound d (.decl (if use = .top ∧ Named d n "impl" then .member else .kept)) m := by
  obtain ⟨fuel, r, hclean, hdecoded⟩ := h
  have hfn := steady_readDecl (d := d) fuel
  obtain ⟨c, b, b', rfl, hpart, hshow⟩ :=
    (Shape.fills_of_read (regular_declShape hfn) hclean).exists_part rfl hvalue
  obtain ⟨x, xs, hx, rfl, hmem⟩ := exists_item hfn hpart hm
  have hxs : xs = c.fns := hshow _ DeclDoc.fns (spares_declShape hfn).2.2.1
  refine sound_of_readDecl hx fun f hf => ?_
  split
  · next hmember =>
    obtain ⟨rfl, hnamed⟩ := hmember
    have himpl : c.impl ≠ "" :=
      ne_empty_of_named hclean rfl rfl (fun _ _ => rfl) (spares_declShape hfn).2.1 hnamed
    exact (hdecoded c rfl).2 himpl f (hxs ▸ hmem f hf)
  · trivial

theorem sound_of_body (h : Sound d (.decl use) n) (hvalue : d.value? n "body" = some v)
    (hm : m ∈ (d.resolve v).items) :
    Sound d (.stmt (if use = .member ∨ use = .top ∧ Named d n "fn" then .body else .kept)) m := by
  obtain ⟨fuel, r, hclean, hdecoded⟩ := h
  have hfn := steady_readDecl (d := d) fuel
  obtain ⟨c, b, b', rfl, hpart, hshow⟩ :=
    (Shape.fills_of_read (regular_declShape hfn) hclean).exists_part rfl hvalue
  obtain ⟨x, xs, hx, rfl, hmem⟩ :=
    exists_item (steady_read (regular_stmtShape d true)) hpart hm
  have hxs : some xs = c.body := hshow _ DeclDoc.body (spares_declShape hfn).2.2.2
  have hwithin (hbody : c.BodyWithin (Decodes d)) : ∀ s ∈ x, s.Within (Decodes d) :=
    fun s hs => hbody xs hxs.symm s (hmem s hs)
  split
  · next hdecodes =>
    refine ⟨x, hx, fun s hs _ => hwithin ?_ s hs⟩
    rcases hdecodes with rfl | ⟨rfl, hnamed⟩
    · exact hdecoded c rfl
    · exact (hdecoded c rfl).1
        (ne_empty_of_named hclean rfl rfl (fun _ _ => rfl) (spares_declShape hfn).1 hnamed)
  · exact ⟨x, hx, fun s _ hkept => absurd rfl hkept⟩

theorem sound_of_decl {q : Place} (h : Sound d (.decl use) n) (hvalue : d.value? n name = some v)
    (htarget : declTarget? d n use name = some (.each q)) (hm : m ∈ (d.resolve v).items) :
    Sound d q m := by
  have hplain {β : Type} {s : Shape β} (hs : s.Regular)
      {set : DeclDoc → List β → DeclDoc}
      (hpart : ∀ fuel,
        (declShape d (readDecl d fuel)).part name = some (listPart d (s.read d) set)) :
      ∃ r, Clean (s.read d m) r := by
    obtain ⟨fuel, r, hclean, -⟩ := h
    obtain ⟨c, b, b', rfl, hpart, -⟩ :=
      (Shape.fills_of_read (regular_declShape (steady_readDecl fuel)) hclean).exists_part
        (hpart fuel) hvalue
    obtain ⟨x, -, hx, -⟩ := exists_item (steady_read hs) hpart hm
    exact ⟨x, hx⟩
  unfold declTarget? at htarget
  split at htarget
  all_goals first | cases htarget; done | obtain rfl := Target.each.inj (Option.some.inj htarget)
  · exact hplain (regular_fieldShape d) fun _ => rfl
  · exact hplain (regular_variantShape d) fun _ => rfl
  · exact hplain (regular_paramShape d) fun _ => rfl
  · exact sound_of_fns h hvalue hm
  · exact sound_of_body h hvalue hm

end decl

/-! ### Statements -/

theorem sound_of_stmt {use : StmtUse} {q : Place} (h : Sound d (.stmt use) n)
    (hvalue : d.value? n name = some v) (htarget : stmtTarget? use name = some (.one q))
    (hstands : Stands d (.stmt use) q v) : Sound d q v := by
  obtain ⟨r, hclean, hwithin⟩ := h
  have hfilled := Shape.fills_of_read (regular_stmtShape d _) hclean
  obtain ⟨hbinding, hexpr, htail⟩ := spares_stmtShape d (decide (use ≠ .nested))
  unfold stmtTarget? at htarget
  split at htarget
  · obtain rfl := Target.one.inj (Option.some.inj htarget)
    obtain ⟨c, b, b', rfl, hpart, hshow⟩ := hfilled.exists_part rfl hvalue
    obtain ⟨_, ⟨x, hx, rfl⟩, -⟩ := (ensures_bindingPart _ v b).of_clean hpart
    refine ⟨x, hx, fun y hy hkept => ?_⟩
    obtain rfl := Option.mem_def.mp hy
    exact (hwithin c rfl hkept).binding y (hshow _ StmtDoc.binding hbinding).symm
  · split at htarget
    · cases htarget
    · next hkept =>
      obtain rfl := Target.one.inj (Option.some.inj htarget)
      obtain ⟨c, b, b', rfl, hpart, hshow⟩ := hfilled.exists_part rfl hvalue
      obtain ⟨_, ⟨hset, -⟩, -⟩ := (ensures_nodePart v b).of_clean hpart
      obtain rfl := hset ((hstands rfl).resolve_left nofun)
      exact (hwithin c rfl hkept).expr _ (hshow _ StmtDoc.expr hexpr).symm
  · split at htarget
    · cases htarget
    · next hkept =>
      obtain rfl := Target.one.inj (Option.some.inj htarget)
      obtain ⟨c, b, b', rfl, hpart, hshow⟩ := hfilled.exists_part rfl hvalue
      obtain ⟨_, ⟨hset, -⟩, -⟩ := (ensures_nodePart v b).of_clean hpart
      obtain rfl := hset ((hstands rfl).resolve_left nofun)
      exact (hwithin c rfl hkept).tail _ (hshow _ StmtDoc.tail htail).symm
  · cases htarget

theorem sound_of_binding {use : StmtUse} (h : Sound d (.binding use) n) (hkept : use ≠ .kept)
    (hvalue : d.value? n "value" = some v) (hnull : (d.resolve v).isNull = false) :
    Sound d .expr v := by
  obtain ⟨r, hclean, hwithin⟩ := h
  obtain ⟨c, b, b', rfl, hpart, hshow⟩ :=
    (Shape.fills_of_readMaybe (regular_letShape d _) hclean).exists_part rfl hvalue
  obtain ⟨_, ⟨hset, -⟩, -⟩ := (ensures_nodePart v b).of_clean hpart
  obtain rfl := hset hnull
  exact hwithin c rfl hkept _ (hshow _ LetDoc.value (spares_letShape d _)).symm

theorem sound_of_init (h : Sound d .init n) (hvalue : d.value? n "value" = some v)
    (hnull : (d.resolve v).isNull = false) : Sound d .expr v := by
  obtain ⟨r, hclean, hwithin⟩ := h
  obtain ⟨c, b, b', rfl, hpart, hshow⟩ :=
    (Shape.fills_of_read (regular_initShape d) hclean).exists_part rfl hvalue
  obtain ⟨_, ⟨hset, -⟩, -⟩ := (ensures_nodePart v b).of_clean hpart
  obtain rfl := hset hnull
  exact hwithin c rfl _ (hshow _ InitDoc.value (spares_initShape d)).symm

/-! ### Expressions -/

theorem sound_of_nested {depth : Nat} {e : Expr}
    (h : kindOf d (exprWithin d depth) "block" v = .ok e) (hm : m ∈ (d.resolve v).items) :
    Sound d (.stmt .nested) m := by
  obtain ⟨stmts, hstmts, hwithin⟩ :=
    within_of_nestedOf (S := Decodes d) (fun _ e he => ⟨depth, e, he⟩) h
  obtain ⟨xs, hxs, rfl⟩ := Fit.clean_map (clean_of_fitting hstmts)
  have hitem := steady_read (d := d) (regular_stmtShape d false)
  obtain ⟨_, ⟨-, hnone⟩ | ⟨ys, rfl, hitems⟩, -⟩ := (Fit.ensures_items hitem).of_clean hxs
  · simp [hnone] at hm
  · obtain ⟨x, hx, hclean⟩ := exists_right_of_forall₂ hitems hm
    exact ⟨x, hclean, fun s hs _ => hwithin s (List.mem_filterMap.mpr ⟨x, hx, hs⟩)⟩

/-- The one key of an expression names its kind. -/
theorem exists_of_expr (h : Sound d .expr n)
    (hvalue : Place.expr.value? d n name = some v) :
    ∃ depth e, kindOf d (exprWithin d depth) name v = .ok e := by
  obtain ⟨depth, line, tag, k, w, e, hn, hkind⟩ := exists_of_decodes h
  obtain ⟨⟨k', v'⟩, hfind, rfl⟩ := Option.map_eq_some_iff.mp hvalue
  have hwritten : written d n = [(k, w)] := by simp only [written, hn]
  rw [hwritten] at hfind
  obtain ⟨hname, -⟩ := List.find?_eq_some_iff_append.mp hfind
  obtain ⟨rfl, rfl⟩ := Prod.mk.inj (List.mem_singleton.mp (List.mem_of_find?_eq_some hfind))
  obtain rfl : k'.ownText = name := by simpa using hname
  exact ⟨depth, e, hkind⟩

theorem sound_of_operand {depth : Nat} {e : Expr} (h : exprWithin d depth v = .ok e) :
    Sound d .expr v := by
  have hv : Decodes d v := ⟨depth, e, h⟩
  change Decodes d (d.resolve v)
  rwa [resolve_of_decodes hv]

theorem sound_of_expr {q : Place} (h : Sound d .expr n)
    (hvalue : Place.expr.value? d n name = some v)
    (htarget : kindTarget? name = some (.one q)) : Sound d q v := by
  obtain ⟨depth, e, hkind⟩ := exists_of_expr h hvalue
  unfold kindTarget? at htarget
  split at htarget
  · obtain rfl := Target.one.inj (Option.some.inj htarget)
    obtain ⟨e', he', -⟩ := map_eq_ok_iff.mp hkind
    exact sound_of_operand he'
  · obtain rfl := Target.one.inj (Option.some.inj htarget)
    obtain ⟨e', he', -⟩ := map_eq_ok_iff.mp hkind
    exact sound_of_operand he'
  · obtain rfl := Target.one.inj (Option.some.inj htarget)
    obtain ⟨e', he', -⟩ := map_eq_ok_iff.mp hkind
    exact sound_of_operand he'
  · cases htarget
  · obtain ⟨keys, hkeys, hq⟩ := Option.map_eq_some_iff.mp htarget
    obtain rfl := Target.one.inj hq
    exact ⟨⟨name, hkeys⟩, parts_of_kindOf (fun _ e he => ⟨depth, e, he⟩) hkeys hkind⟩

theorem sound_of_block {q : Place} (h : Sound d .expr n)
    (hvalue : Place.expr.value? d n name = some v)
    (htarget : kindTarget? name = some (.each q)) (hm : m ∈ (d.resolve v).items) :
    Sound d q m := by
  obtain ⟨depth, e, hkind⟩ := exists_of_expr h hvalue
  unfold kindTarget? at htarget
  split at htarget
  case h_4 =>
    obtain rfl := Target.each.inj (Option.some.inj htarget)
    exact sound_of_nested hkind hm
  case h_5 =>
    obtain ⟨keys, -, hq⟩ := Option.map_eq_some_iff.mp htarget
    cases hq
  all_goals cases htarget

/-! ### Parts of expressions -/

/-- No kind of expression has both of the keys for the same part. -/
theorem not_of_and_base {kind : String} {keys : List String} (h : partKeys? kind = some keys) :
    ¬ ("of" ∈ keys ∧ "base" ∈ keys) := by
  unfold partKeys? at h
  split at h
  all_goals first | cases h; done | obtain rfl := Option.some.inj h; decide

theorem exists_of_parts {keys : List String} {part : Node → ExprDoc → Fit ExprDoc}
    (h : Sound d (.parts keys) n) (hname : name ∈ keys) (hvalue : d.value? n name = some v)
    (hpart : exprPart? d name = some part) :
    ∃ c b b', c.PartIn (Decodes d) name ∧ Clean (part v b) b' ∧
      ∀ (β : Type) (g : ExprDoc → β), (exprShape d keys).Spares name g → g b' = g c := by
  obtain ⟨-, parts, hparts, hdecoded⟩ := h
  have hread : ∃ e, Clean ((exprShape d keys).read d n) e ∧ parts = e.getD {} := by
    unfold partsOf at hparts
    split at hparts
    · split at hparts
      · cases hparts
      · exact Fit.clean_map (clean_of_fitting hparts)
    · cases hparts
  obtain ⟨e, hclean, rfl⟩ := hread
  have hpart' : (exprShape d keys).part name = some part := by
    simp only [exprShape, List.contains_iff_mem.mpr hname, if_true, hpart]
  obtain ⟨c, b, b', rfl, hb, hshow⟩ :=
    (Shape.fills_of_read (regular_exprShape d keys) hclean).exists_part hpart' hvalue
  exact ⟨c, b, b', hdecoded name hname, hb, hshow⟩

theorem sound_of_part {keys : List String} {q : Place} (h : Sound d (.parts keys) n)
    (hname : name ∈ keys) (hvalue : d.value? n name = some v)
    (htarget : partTarget? name = some (.one q)) (hstands : Stands d (.parts keys) q v) :
    Sound d q v := by
  obtain ⟨hof, hbase, hfn, hval, hcond, -⟩ := spares_exprShape d keys
  have hboth := h.1.elim fun _ => not_of_and_base
  have hnode {set : ExprDoc → Node → ExprDoc} {get : ExprDoc → Option Node}
      (hpart : exprPart? d name = some (nodePart d set))
      (hin : ∀ c : ExprDoc, c.PartIn (Decodes d) name → IfAny (Decodes d) (get c))
      (hget : ∀ a x, get (set a x) = some x) (hspares : (exprShape d keys).Spares name get)
      (hnull : (d.resolve v).isNull = false) : Sound d .expr v := by
    obtain ⟨c, b, b', hc, hclean, hshow⟩ := exists_of_parts h hname hvalue hpart
    obtain ⟨_, ⟨hset, -⟩, -⟩ := (ensures_nodePart v b).of_clean hclean
    obtain rfl := hset hnull
    exact hin c hc _ ((hshow _ get hspares).symm.trans (hget _ _))
  unfold partTarget? at htarget
  split at htarget
  all_goals first | cases htarget; done | obtain rfl := Target.one.inj (Option.some.inj htarget)
  all_goals have hnull := (hstands rfl).resolve_left nofun
  · exact hnode rfl (fun _ hc => hc) (fun _ _ => rfl) (hof hboth hname) hnull
  · exact hnode rfl (fun _ hc => hc) (fun _ _ => rfl) (hbase hboth hname) hnull
  · exact hnode rfl (fun _ hc => hc) (fun _ _ => rfl) hfn hnull
  · exact hnode rfl (fun _ hc => hc) (fun _ _ => rfl) hval hnull
  · exact hnode rfl (fun _ hc => hc) (fun _ _ => rfl) hcond hnull

theorem sound_of_parts {keys : List String} {q : Place} (h : Sound d (.parts keys) n)
    (hname : name ∈ keys) (hvalue : d.value? n name = some v)
    (htarget : partTarget? name = some (.each q)) (hm : m ∈ (d.resolve v).items)
    (hstands : Stands d (.parts keys) q m) : Sound d q m := by
  obtain ⟨-, -, -, -, -, hargs, hfields, hthen, helse⟩ := spares_exprShape d keys
  unfold partTarget? at htarget
  split at htarget
  all_goals first | cases htarget; done | obtain rfl := Target.each.inj (Option.some.inj htarget)
  · obtain ⟨c, b, b', hc, hclean, hshow⟩ := exists_of_parts h hname hvalue rfl
    obtain ⟨x, xs, hx, rfl, hmem⟩ := exists_item steady_read_node hclean hm
    obtain ⟨_, hstood, -⟩ := (ensures_read_node m).of_clean hx
    obtain rfl := hstood ((hstands rfl).resolve_left nofun)
    have hxs : xs = c.args := hshow _ ExprDoc.args hargs
    obtain ⟨n', hn', hdecodes⟩ := hc _ (hxs ▸ hmem _ rfl)
    obtain rfl := Option.some.inj hn'
    exact hdecodes
  · obtain ⟨c, b, b', hc, hclean, hshow⟩ := exists_of_parts h hname hvalue rfl
    obtain ⟨x, xs, hx, rfl, hmem⟩ := exists_item (steady_read (regular_initShape d)) hclean hm
    have hxs : xs = c.inits := hshow _ ExprDoc.inits hfields
    exact ⟨x, hx, fun i hi => hc i (hxs ▸ hmem i hi)⟩
  · obtain ⟨c, b, b', hc, hclean, hshow⟩ := exists_of_parts h hname hvalue rfl
    obtain ⟨x, xs, hx, rfl, hmem⟩ :=
      exists_item (steady_read (regular_stmtShape d false)) hclean hm
    have hxs : xs = c.yes := hshow _ ExprDoc.yes hthen
    exact ⟨x, hx, fun s hs _ => hc s (hxs ▸ hmem s hs)⟩
  · obtain ⟨c, b, b', hc, hclean, hshow⟩ := exists_of_parts h hname hvalue rfl
    obtain ⟨x, xs, hx, rfl, hmem⟩ :=
      exists_item (steady_read (regular_stmtShape d false)) hclean hm
    have hxs : some xs = c.no := hshow _ ExprDoc.no helse
    exact ⟨x, hx, fun s hs _ => hc xs hxs.symm s (hmem s hs)⟩

/-- What is read at a place of an accepted dump goes on to be so at the next one. -/
theorem Sound.value {p q : Place} (h : Sound d p n) (hvalue : p.value? d n name = some v)
    (htarget : p.target? d n name = some (.one q)) (hstands : Stands d p q v) : Sound d q v := by
  cases p with
  | decl use =>
      unfold Place.target? declTarget? at htarget
      dsimp only at htarget
      split at htarget <;> cases htarget
  | stmt use => exact sound_of_stmt h hvalue htarget hstands
  | binding use =>
      simp only [Place.target?, Option.ite_none_right_eq_some] at htarget
      obtain ⟨⟨rfl, hkept⟩, hq⟩ := htarget
      obtain rfl := Target.one.inj (Option.some.inj hq)
      exact sound_of_binding h hkept hvalue ((hstands rfl).resolve_left nofun)
  | init =>
      simp only [Place.target?, Option.ite_none_right_eq_some] at htarget
      obtain ⟨rfl, hq⟩ := htarget
      obtain rfl := Target.one.inj (Option.some.inj hq)
      exact sound_of_init h hvalue ((hstands rfl).resolve_left nofun)
  | expr => exact sound_of_expr h hvalue htarget
  | parts keys =>
      simp only [Place.target?, Option.ite_none_right_eq_some] at htarget
      exact sound_of_part h htarget.1 hvalue htarget.2 hstands
  | file =>
      simp only [Place.target?, Option.ite_none_right_eq_some] at htarget
      cases htarget.2
  | _ => cases htarget

theorem Sound.item {p q : Place} (h : Sound d p n) (hvalue : p.value? d n name = some v)
    (htarget : p.target? d n name = some (.each q)) (hm : m ∈ (d.resolve v).items)
    (hstands : Stands d p q m) : Sound d q m := by
  cases p with
  | file =>
      simp only [Place.target?, Option.ite_none_right_eq_some] at htarget
      obtain ⟨rfl, hq⟩ := htarget
      obtain rfl := Target.each.inj (Option.some.inj hq)
      exact sound_of_file h hvalue hm
  | decl use => exact sound_of_decl h hvalue htarget hm
  | stmt use =>
      unfold Place.target? stmtTarget? at htarget
      dsimp only at htarget
      split at htarget
      · cases htarget
      · split at htarget <;> cases htarget
      · split at htarget <;> cases htarget
      · cases htarget
  | binding use =>
      simp only [Place.target?, Option.ite_none_right_eq_some] at htarget
      cases htarget.2
  | init =>
      simp only [Place.target?, Option.ite_none_right_eq_some] at htarget
      cases htarget.2
  | expr => exact sound_of_block h hvalue htarget hm
  | parts keys =>
      simp only [Place.target?, Option.ite_none_right_eq_some] at htarget
      exact sound_of_parts h htarget.1 hvalue htarget.2 hm hstands
  | _ => cases htarget

theorem sound_of_reads {p : Place} (hroot : ∀ r ∈ d.root, Sound d .file r) (h : Reads d p n) :
    Sound d p n := by
  induction h with
  | root hr => exact hroot _ hr
  | value _ hvalue htarget hstands ih => exact ih.value hvalue htarget hstands
  | item _ hvalue htarget hm hstands ih => exact ih.item hvalue htarget hm hstands

/-! ### Known keys -/

theorem known_of_filled {α : Type} {s : Shape α} {r : Option α} {keys : List String}
    (h : s.Filled d n r) (hstrict : s.strict = true)
    (hkeys : ∀ name, (s.part name).isSome → name ∈ keys) :
    ∀ e ∈ d.entries n, (match d.text? e.1 with
      | some none => true
      | some (some name) => keys.contains name
      | none => false) = true := by
  intro e he
  rcases h.named_of_strict hstrict he with htext | ⟨name, htext, hknown⟩
  · rw [htext]
  · rw [htext]
    exact List.contains_iff_mem.mpr (hkeys name hknown)

/-! The keys that the schema has parts for are those of the place. -/

theorem mem_keys_of_fileShape (h : ((fileShape d).part name).isSome) :
    name ∈ Place.file.keys := by
  dsimp only [fileShape] at h
  split at h
  all_goals first | simp [Place.keys]; done | cases h

theorem mem_keys_of_declShape {use : DeclUse} {f : Node → Fit (Option DeclDoc)}
    (h : ((declShape d f).part name).isSome) : name ∈ (Place.decl use).keys := by
  dsimp only [declShape] at h
  split at h
  all_goals first | simp [Place.keys]; done | cases h

theorem mem_keys_of_fieldShape (h : ((fieldShape d).part name).isSome) :
    name ∈ Place.field.keys := by
  dsimp only [fieldShape] at h
  split at h
  all_goals first | simp [Place.keys]; done | cases h

theorem mem_keys_of_variantShape (h : ((variantShape d).part name).isSome) :
    name ∈ Place.variant.keys := by
  dsimp only [variantShape] at h
  split at h
  all_goals first | simp [Place.keys]; done | cases h

theorem mem_keys_of_paramShape (h : ((paramShape d).part name).isSome) :
    name ∈ Place.param.keys := by
  dsimp only [paramShape] at h
  split at h
  all_goals first | simp [Place.keys]; done | cases h

theorem mem_keys_of_stmtShape {use : StmtUse} {strict : Bool}
    (h : ((stmtShape d strict).part name).isSome) : name ∈ (Place.stmt use).keys := by
  dsimp only [stmtShape] at h
  split at h
  all_goals first | simp [Place.keys]; done | cases h

theorem mem_keys_of_letShape {use : StmtUse} {strict : Bool}
    (h : ((letShape d strict).part name).isSome) : name ∈ (Place.binding use).keys := by
  dsimp only [letShape] at h
  split at h
  all_goals first | simp [Place.keys]; done | cases h

theorem known_of_sound {p : Place} (h : Sound d p n) (hstrict : p.isStrict = true) :
    Known d p n := by
  cases p with
  | expr =>
      intro e he
      obtain ⟨depth, line, tag, k, w, x, hn, hkind⟩ := exists_of_decodes h
      have hwritten : Place.expr.entries d n = [(k, w)] := by simp only [Place.entries, written, hn]
      obtain rfl := List.mem_singleton.mp (hwritten ▸ he)
      exact List.contains_iff_mem.mpr (mem_exprKinds_of_kindOf hkind)
  | parts keys =>
      intro e he
      obtain ⟨-, parts, hparts, -⟩ := h
      unfold partsOf at hparts
      split at hparts
      · split at hparts
        · cases hparts
        · next hnone => simpa [Place.knows] using List.find?_eq_none.mp hnone e he
      · cases hparts
  | init => cases hstrict
  | stmt use =>
      obtain ⟨r, hclean, -⟩ := h
      have hall : (stmtShape d (use ≠ .nested)).strict = true := by
        cases use <;> first | rfl | cases hstrict
      exact known_of_filled (Shape.fills_of_read (regular_stmtShape d _) hclean) hall
        fun _ => mem_keys_of_stmtShape
  | binding use =>
      obtain ⟨r, hclean, -⟩ := h
      have hall : (letShape d (use ≠ .nested)).strict = true := by
        cases use <;> first | rfl | cases hstrict
      exact known_of_filled (Shape.fills_of_readMaybe (regular_letShape d _) hclean) hall
        fun _ => mem_keys_of_letShape
  | file =>
      obtain ⟨r, hclean, -⟩ := h
      exact known_of_filled (Shape.fills_of_read (regular_fileShape d) hclean) rfl
        fun _ => mem_keys_of_fileShape
  | decl use =>
      obtain ⟨fuel, r, hclean, -⟩ := h
      exact known_of_filled
        (Shape.fills_of_read (regular_declShape (steady_readDecl fuel)) hclean) rfl
        fun _ => mem_keys_of_declShape
  | field =>
      obtain ⟨r, hclean⟩ := h
      exact known_of_filled (Shape.fills_of_read (regular_fieldShape d) hclean) rfl
        fun _ => mem_keys_of_fieldShape
  | variant =>
      obtain ⟨r, hclean⟩ := h
      exact known_of_filled (Shape.fills_of_read (regular_variantShape d) hclean) rfl
        fun _ => mem_keys_of_variantShape
  | param =>
      obtain ⟨r, hclean⟩ := h
      exact known_of_filled (Shape.fills_of_read (regular_paramShape d) hclean) rfl
        fun _ => mem_keys_of_paramShape

end steps

/-! ### Accepted dumps -/

theorem clean_of_count {α : Type} {x : Fit α} {a : α} (h : Clean (Fit.count >>= fun _ => x) a) :
    Clean x a := by
  obtain ⟨t, t', hrun, hflawed, hmerged⟩ := h
  have hboth : (Fit.count t >>= fun p => x p.2) = .ok (a, t') := hrun
  obtain ⟨⟨_, t''⟩, hcount, hx⟩ := bind_eq_ok_iff.mp hboth
  refine ⟨t'', t', hx, hflawed, ?_⟩
  unfold Fit.count at hcount
  extract_lets t₁ at hcount
  split at hcount
  · obtain ⟨-, rfl⟩ := Prod.mk.inj (Except.ok.inj hcount)
    exact hmerged
  · cases hcount

theorem sound_root_of_decode {name : String} {d : Document} {m : Module}
    (h : decodeDocument name d = .ok m) {r : Node} (hr : d.root = some r) : Sound d .file r := by
  obtain ⟨f, hf, hmodule⟩ := bind_eq_ok_iff.mp h
  have hread := clean_of_fitting hf
  unfold readFile at hread
  rw [hr] at hread
  obtain ⟨x, hx, rfl⟩ := Fit.clean_map (clean_of_count hread)
  have hdecls := decodedIn_of_moduleOf (S := Decodes d) (fun _ e he => ⟨d.bound, e, he⟩) hmodule
  refine ⟨x, hx, fun f hf => ?_⟩
  rwa [Option.mem_def.mp hf] at hdecls

/-- Of an accepted dump, every mapping that is read at a strict place has known keys only, however
deep it stands. -/
theorem keys_known {name text : String} {m : Module} (h : decode name text = .ok m) :
    ∃ d, Document.parse? text = some d ∧
      ∀ p n, Reads d p n → p.isStrict = true → Known d p n := by
  unfold decode at h
  split at h
  · next d hd =>
    refine ⟨d, hd, fun p n hreads hstrict => known_of_sound ?_ hstrict⟩
    exact sound_of_reads (fun r hr => sound_root_of_decode h hr) hreads
  · cases h

/-- A dump with an access to a field in a block. -/
def nestedAccess : String :=
  "decls: [{fn: f, body: [{tail: {block: [{tail: {field: {of: {path: x}, name: y}}}]}}]}]"

/-- Parsing, decoding and finding a place in one computation. -/
theorem exists_accepted (text : String) (found : Document → Bool)
    (h : (Document.parse? text).any (fun d =>
      (decodeDocument "m.yaml" d).toOption.isSome && found d) = true) :
    ∃ d m, Document.parse? text = some d ∧ decode "m.yaml" text = .ok m ∧ found d = true := by
  obtain ⟨d, hd, hboth⟩ := (Option.any_eq_true _ _).mp h
  obtain ⟨haccepted, hfound⟩ := (Bool.and_eq_true _ _).mp hboth
  obtain ⟨m, hm⟩ := Option.isSome_iff_exists.mp haccepted
  refine ⟨d, m, hd, ?_, hfound⟩
  unfold decode
  rw [hd]
  exact toOption_eq_some_iff.mp hm

theorem keys_known_nestedAccess :
    ∃ d, Document.parse? nestedAccess = some d ∧ (∃ n, Reads d (.parts ["of", "name"]) n) ∧
      ∀ p n, Reads d p n → p.isStrict = true → Known d p n := by
  obtain ⟨d, m, hd, hm, hfound⟩ := exists_accepted nestedAccess
    (fun d =>
      finds d [("decls", 0), ("body", 0), ("tail", 0), ("block", 0), ("tail", 0), ("field", 0)]
        (.parts ["of", "name"]) true) (by decide +kernel)
  obtain ⟨n, hn, -⟩ := exists_of_finds hfound
  obtain ⟨d', hd', hknown⟩ := keys_known hm
  obtain rfl := Option.some.inj (hd.symm.trans hd')
  exact ⟨d, hd, ⟨n, hn⟩, hknown⟩

/-- A dump with a block in which a binding, a statement and an entry of a struct literal have keys
that they should not have. -/
def strayKeys : String :=
  "decls: [\x7bfn: f, body: [\x7btail: \x7bblock: [\x7blet: \x7bpat: a, kind: b\x7d\x7d, " ++
    "\x7btail: \x7bstruct: \x7bpath: S, fields: [\x7bname: x, size: b\x7d]\x7d\x7d, " ++
    "kind: c\x7d]\x7d\x7d]\x7d]"

theorem unknown_keys_accepted :
    ∃ d m, Document.parse? strayKeys = some d ∧ decode "m.yaml" strayKeys = .ok m ∧
      (∃ n, Reads d (.stmt .nested) n ∧ ¬ Known d (.stmt .nested) n) ∧
      (∃ n, Reads d (.binding .nested) n ∧ ¬ Known d (.binding .nested) n) ∧
      ∃ n, Reads d .init n ∧ ¬ Known d .init n := by
  obtain ⟨d, m, hd, hm, hfound⟩ := exists_accepted strayKeys
    (fun d =>
      finds d [("decls", 0), ("body", 0), ("tail", 0), ("block", 1)] (.stmt .nested) false &&
      finds d [("decls", 0), ("body", 0), ("tail", 0), ("block", 0), ("let", 0)]
        (.binding .nested) false &&
      finds d [("decls", 0), ("body", 0), ("tail", 0), ("block", 1), ("tail", 0), ("struct", 0),
        ("fields", 0)] .init false) (by decide +kernel)
  rw [Bool.and_eq_true, Bool.and_eq_true] at hfound
  obtain ⟨⟨hstmt, hbinding⟩, hinit⟩ := hfound
  obtain ⟨s, hs, hunknown⟩ := exists_of_finds hstmt
  obtain ⟨b, hb, hunknown'⟩ := exists_of_finds hbinding
  obtain ⟨i, hi, hunknown''⟩ := exists_of_finds hinit
  exact ⟨d, m, hd, hm, ⟨s, hs, of_decide_eq_false hunknown⟩,
    ⟨b, hb, of_decide_eq_false hunknown'⟩, i, hi, of_decide_eq_false hunknown''⟩

end ClientLoom.Dump
