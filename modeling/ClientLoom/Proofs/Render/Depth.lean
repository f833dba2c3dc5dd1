import ClientLoom.Render
import ClientLoom.Proofs.Render.Indents

/-! # The depth of rendered text

A printer that starts one level deeper prints the same text with every line indented, provided that
no text it prints as it stands has a line break of its own.  For blocks this is an induction on
statements and expressions together (`indents_lines`), because blocks stand within expressions and
expressions within statements.  A function is rendered from lines and a block, so that a method of
an impl block is the function on its own with every line indented (`methods_indented`). -/

namespace ClientLoom

/-! ### Texts taken over -/

mutual

/-- The texts that a type takes over as they stand. -/
def Ty.atoms : Ty → List String
  | .path p args => p.segments ++ Ty.atomsAll args
  | .ref _ elem => elem.atoms
  | .tuple elems => Ty.atomsAll elems
  | .slice elem => elem.atoms
  | .raw text => [text]

/-- The texts that types take over. -/
def Ty.atomsAll : List Ty → List String
  | [] => []
  | t :: ts => t.atoms ++ Ty.atomsAll ts

end

/-- The texts of a type that may be absent. -/
def Ty.atoms? : Option Ty → List String
  | none => []
  | some t => t.atoms

mutual

/-- The texts that an expression takes over as they stand. -/
def Expr.atoms : Expr → List String
  | .path p => p.segments
  | .lit text => [text]
  | .raw text => [text]
  | .field base name => base.atoms ++ [name]
  | .call callee args => callee.atoms ++ Expr.atomsAll args
  | .method base name args => base.atoms ++ name :: Expr.atomsAll args
  | .macroCall p args => p.segments ++ Expr.atomsAll args
  | .construct p inits base => p.segments ++ (FieldInit.atomsAll inits ++ Expr.atoms? base)
  | .ref _ e => e.atoms
  | .attempt e => e.atoms
  | .letCond pat e => pat :: e.atoms
  | .cond test yes no => test.atoms ++ (Stmt.atomsAll yes ++ Stmt.atomsAll? no)
  | .block stmts => Stmt.atomsAll stmts

/-- The texts that expressions take over. -/
def Expr.atomsAll : List Expr → List String
  | [] => []
  | e :: es => e.atoms ++ Expr.atomsAll es

/-- The texts of an expression that may be absent. -/
def Expr.atoms? : Option Expr → List String
  | none => []
  | some e => e.atoms

/-- The texts that the entries of a struct literal take over. -/
def FieldInit.atomsAll : List FieldInit → List String
  | [] => []
  | .mk name value :: rest => name :: (Expr.atoms? value ++ FieldInit.atomsAll rest)

/-- The texts that a statement takes over. -/
def Stmt.atoms : Stmt → List String
  | .bind pat ty value => pat :: (Ty.atoms? ty ++ Expr.atoms? value)
  | .expr e _ => e.atoms

/-- The texts that statements take over. -/
def Stmt.atomsAll : List Stmt → List String
  | [] => []
  | s :: rest => s.atoms ++ Stmt.atomsAll rest

/-- The texts of statements that may be absent. -/
def Stmt.atomsAll? : Option (List Stmt) → List String
  | none => []
  | some stmts => Stmt.atomsAll stmts

end

/-- The texts that an attribute takes over. -/
def Attr.atoms (a : Attr) : List String := a.path.segments ++ [a.args]

/-- The texts that a pattern takes over. -/
def Pattern.atoms : Pattern → List String
  | .ident _ name => [name]
  | .raw text => [text]

/-- The texts that a parameter takes over. -/
def Param.atoms (p : Param) : List String := p.pat.atoms ++ p.ty.atoms

/-- The texts that a function takes over: names, patterns, attributes, and those of its types and
its body. -/
def Func.atoms (f : Func) : List String :=
  f.name :: (f.attrs.flatMap Attr.atoms ++ (f.params.flatMap Param.atoms ++
    (Ty.atoms? f.ret ++ Stmt.atomsAll? f.body)))

/-- No text has a line break. -/
def Unbroken (texts : List String) : Prop := ∀ t ∈ texts, OneLine t

@[simp] theorem unbroken_append {ts us : List String} :
    Unbroken (ts ++ us) ↔ Unbroken ts ∧ Unbroken us :=
  List.forall_mem_append

@[simp] theorem unbroken_cons {t : String} {ts : List String} :
    Unbroken (t :: ts) ↔ OneLine t ∧ Unbroken ts :=
  List.forall_mem_cons

@[simp] theorem unbroken_nil : Unbroken [] := List.forall_mem_nil _

/-! ### Types and heads -/

theorem Path.oneLine_text {p : Path} (h : Unbroken p.segments) : OneLine p.text :=
  oneLine_intercalate (by decide) h

theorem Ty.oneLine_angled {texts : List String} (h : Unbroken texts) :
    OneLine (Ty.angled texts) := by
  cases texts with
  | nil => exact List.not_mem_nil
  | cons text texts =>
      have hinner : OneLine (", ".intercalate (text :: texts)) :=
        oneLine_intercalate (by decide) h
      show OneLine ("<" ++ ", ".intercalate (text :: texts) ++ ">")
      simp only [oneLine_append]
      exact ⟨⟨by decide, hinner⟩, by decide⟩

theorem Ty.oneLine_tupled {texts : List String} (h : Unbroken texts) :
    OneLine (Ty.tupled texts) := by
  have hinner : OneLine (", ".intercalate texts) := oneLine_intercalate (by decide) h
  match texts with
  | [] => decide
  | [text] =>
      show OneLine ("(" ++ text ++ ",)")
      simp only [oneLine_append]
      exact ⟨⟨by decide, h text (List.mem_singleton_self text)⟩, by decide⟩
  | first :: second :: texts =>
      show OneLine ("(" ++ ", ".intercalate (first :: second :: texts) ++ ")")
      simp only [oneLine_append]
      exact ⟨⟨by decide, hinner⟩, by decide⟩

mutual

theorem Ty.oneLine_text : ∀ t : Ty, Unbroken t.atoms → OneLine t.text
  | .path p args, h => by
      obtain ⟨hp, hargs⟩ := unbroken_append.mp h
      exact oneLine_append.mpr
        ⟨Path.oneLine_text hp, Ty.oneLine_angled (Ty.oneLine_texts args hargs)⟩
  | .ref mutable t, h => by
      have hmark : OneLine (if mutable then "&mut " else "&") := by cases mutable <;> decide
      exact oneLine_append.mpr ⟨hmark, Ty.oneLine_text t h⟩
  | .tuple elems, h => Ty.oneLine_tupled (Ty.oneLine_texts elems h)
  | .slice t, h => by
      show OneLine ("[" ++ t.text ++ "]")
      simp only [oneLine_append]
      exact ⟨⟨by decide, Ty.oneLine_text t h⟩, by decide⟩
  | .raw text, h => h text (List.mem_singleton_self text)

theorem Ty.oneLine_texts : ∀ ts : List Ty, Unbroken (Ty.atomsAll ts) → Unbroken (Ty.texts ts)
  | [], _ => unbroken_nil
  | t :: ts, h => by
      obtain ⟨ht, hts⟩ := unbroken_append.mp h
      exact unbroken_cons.mpr ⟨Ty.oneLine_text t ht, Ty.oneLine_texts ts hts⟩

end

theorem oneLine_tyMark {t : Option Ty} (h : Unbroken (Ty.atoms? t)) : OneLine (tyMark t) := by
  cases t with
  | none => decide
  | some t =>
      rw [tyMark, oneLine_append]
      exact ⟨by decide, Ty.oneLine_text t h⟩

/-! ### Bodies -/

section bodies

variable {start : Bool} {a b text : String} {as bs : List String} {d : Int}

theorem Indents.followed (h : Indents start false a b) (htext : OneLine text) :
    Indents start false (a ++ text) (b ++ text) :=
  h.append htext.indents

theorem OneLine.before {rest : Bool} (htext : OneLine text) (h : Indents false rest a b) :
    Indents false rest (text ++ a) (text ++ b) :=
  htext.indents.append h

/-- Arguments in brackets. -/
theorem Indents.listed (h : Indents start false a b) (hopen : OneLine text)
    (hargs : List.Forall₂ (Indents false false) as bs) :
    Indents start false (a ++ text ++ ", ".intercalate as ++ ")")
      (b ++ text ++ ", ".intercalate bs ++ ")") :=
  ((h.followed hopen).append (.intercalate (by decide) hargs)).followed (by decide)

/-- A text behind which the line ends. -/
theorem Indents.ending (h : Indents start false a b) (htext : OneLine text) :
    Indents start true (a ++ (text ++ "\n")) (b ++ (text ++ "\n")) :=
  h.append (htext.before indents_break)

/-- A closing brace that stands on a line of its own. -/
theorem Indents.closing (hd : 0 ≤ d) (h : Indents start true a b) :
    Indents start false (a ++ indent d ++ "\x7d") (b ++ indent (d + 1) ++ "\x7d") := by
  have hbrace : OneLine "\x7d" := by decide
  rw [String.append_assoc, String.append_assoc]
  exact h.append (hbrace.indents.deeper hd (by decide))

mutual

/-- An expression one level deeper: the lines that begin within it are indented. -/
theorem Expr.indents (d : Int) (hd : 0 ≤ d) :
    ∀ e : Expr, Unbroken e.atoms → Indents false false (e.textAt d) (e.textAt (d + 1))
  | .path p, h => (Path.oneLine_text h).indents
  | .lit _, h | .raw _, h => OneLine.indents (unbroken_cons.mp h).1
  | .field base name, h => by
      simp only [Expr.atoms, unbroken_append, unbroken_cons] at h
      exact ((Expr.indents d hd base h.1).followed (by decide)).followed h.2.1
  | .call callee args, h => by
      simp only [Expr.atoms, unbroken_append] at h
      exact (Expr.indents d hd callee h.1).listed (by decide) (Expr.indents_all d hd args h.2)
  | .method base name args, h => by
      simp only [Expr.atoms, unbroken_append, unbroken_cons] at h
      obtain ⟨hbase, hname, hargs⟩ := h
      have hdot : OneLine "." := by decide
      exact (((Expr.indents d hd base hbase).followed hdot).followed hname).listed (by decide)
        (Expr.indents_all d hd args hargs)
  | .macroCall p args, h => by
      simp only [Expr.atoms, unbroken_append] at h
      exact (Path.oneLine_text h.1).indents.listed (by decide) (Expr.indents_all d hd args h.2)
  | .construct p inits base, h => by
      simp only [Expr.atoms, unbroken_append] at h
      obtain ⟨hp, hinits, hbase⟩ := h
      have hparts := List.rel_append (FieldInit.indents_all d hd inits hinits)
        (Expr.indents_base d hd base hbase)
      have hbrace : OneLine " \x7b" := by decide
      have hopen := (Path.oneLine_text hp).indents.followed hbrace
      exact (hopen.append (.intercalate (by decide) hparts)).followed (by decide)
  | .ref mutable e, h => by
      have hmark : OneLine (if mutable then "&mut " else "&") := by cases mutable <;> decide
      exact hmark.before (Expr.indents d hd e h)
  | .attempt e, h => (Expr.indents d hd e h).followed (by decide)
  | .letCond pat e, h => by
      simp only [Expr.atoms, unbroken_cons] at h
      have hpat : OneLine ("let " ++ pat ++ " = ") := by
        simp only [oneLine_append]
        exact ⟨⟨by decide, h.1⟩, by decide⟩
      exact hpat.before (Expr.indents d hd e h.2)
  | .cond test yes no, h => by
      simp only [Expr.atoms, unbroken_append] at h
      obtain ⟨htest, hyes, hno⟩ := h
      have hif : OneLine "if " := by decide
      have hbrace : OneLine " \x7b" := by decide
      have hhead := (hif.before (Expr.indents d hd test htest)).ending hbrace
      have hyes := hhead.append (Stmt.indents_lines (d + 1) (by omega) yes hyes)
      exact (hyes.closing hd).append (Stmt.indents_else d hd no hno)
  | .block stmts, h => by
      have hopen : Indents false true "\x7b\n" "\x7b\n" := ⟨rfl, rfl⟩
      exact (hopen.append (Stmt.indents_lines (d + 1) (by omega) stmts h)).closing hd

theorem Expr.indents_all (d : Int) (hd : 0 ≤ d) : ∀ es : List Expr, Unbroken (Expr.atomsAll es) →
    List.Forall₂ (Indents false false) (argTexts d es) (argTexts (d + 1) es)
  | [], _ => .nil
  | e :: es, h => by
      simp only [Expr.atomsAll, unbroken_append] at h
      exact .cons (Expr.indents d hd e h.1) (Expr.indents_all d hd es h.2)

theorem FieldInit.indents_all (d : Int) (hd : 0 ≤ d) :
    ∀ inits : List FieldInit, Unbroken (FieldInit.atomsAll inits) →
      List.Forall₂ (Indents false false) (initTexts d inits) (initTexts (d + 1) inits)
  | [], _ => .nil
  | .mk name none :: rest, h => by
      simp only [FieldInit.atomsAll, unbroken_append, unbroken_cons] at h
      have hname : OneLine (" " ++ name) := oneLine_append.mpr ⟨by decide, h.1⟩
      exact .cons hname.indents (FieldInit.indents_all d hd rest h.2.2)
  | .mk name (some value) :: rest, h => by
      simp only [FieldInit.atomsAll, unbroken_append, unbroken_cons] at h
      obtain ⟨hname, hvalue, hrest⟩ := h
      have hname : OneLine (" " ++ name ++ ": ") := by
        simp only [oneLine_append]
        exact ⟨⟨by decide, hname⟩, by decide⟩
      exact .cons (hname.before (Expr.indents d hd value hvalue))
        (FieldInit.indents_all d hd rest hrest)

theorem Expr.indents_base (d : Int) (hd : 0 ≤ d) :
    ∀ base : Option Expr, Unbroken (Expr.atoms? base) →
      List.Forall₂ (Indents false false) (baseText d base) (baseText (d + 1) base)
  | none, _ => .nil
  | some e, h => by
      have hdots : OneLine " .." := by decide
      exact .cons (hdots.before (Expr.indents d hd e h)) .nil

theorem Stmt.indents_else (d : Int) (hd : 0 ≤ d) :
    ∀ no : Option (List Stmt), Unbroken (Stmt.atomsAll? no) →
      Indents false false (elseText d no) (elseText (d + 1) no)
  | none, _ => .nil
  | some stmts, h => by
      have hopen : Indents false true " else \x7b\n" " else \x7b\n" := ⟨rfl, rfl⟩
      exact (hopen.append (Stmt.indents_lines (d + 1) (by omega) stmts h)).closing hd

/-- Statements one level deeper: every line is indented. -/
theorem Stmt.indents_lines (d : Int) (hd : 0 ≤ d) :
    ∀ b : List Stmt, Unbroken (Stmt.atomsAll b) →
      Indents true true (linesText d b) (linesText (d + 1) b)
  | [], _ => .nil
  | s :: rest, h => by
      simp only [Stmt.atomsAll, unbroken_append] at h
      exact ((Stmt.indents d hd s h.1).line hd).append (Stmt.indents_lines d hd rest h.2)

theorem Stmt.indents (d : Int) (hd : 0 ≤ d) :
    ∀ s : Stmt, Unbroken s.atoms → Indents false false (s.textAt d) (s.textAt (d + 1))
  | .bind pat ty value, h => by
      simp only [Stmt.atoms, unbroken_append, unbroken_cons] at h
      obtain ⟨hpat, hty, hvalue⟩ := h
      have hhead : OneLine ("let " ++ pat ++ tyMark ty) := by
        simp only [oneLine_append]
        exact ⟨⟨by decide, hpat⟩, oneLine_tyMark hty⟩
      exact (hhead.before (Expr.indents_value d hd value hvalue)).followed (by decide)
  | .expr e semi, h => by
      have hmark : OneLine (if semi then ";" else "") := by cases semi <;> decide
      exact (Expr.indents d hd e h).followed hmark

theorem Expr.indents_value (d : Int) (hd : 0 ≤ d) :
    ∀ value : Option Expr, Unbroken (Expr.atoms? value) →
      Indents false false (valueText d value) (valueText (d + 1) value)
  | none, _ => .nil
  | some e, h => by
      have hsign : OneLine " = " := by decide
      exact hsign.before (Expr.indents d hd e h)

end

end bodies

/-! ### Functions -/

theorem Attr.oneLine_text {a : Attr} (h : Unbroken a.atoms) : OneLine a.text := by
  simp only [Attr.atoms, unbroken_append, unbroken_cons] at h
  have hopen : OneLine (if a.inner then "#![" else "#[") := by cases a.inner <;> decide
  simp only [Attr.text, oneLine_append]
  exact ⟨⟨⟨hopen, Path.oneLine_text h.1⟩, h.2.1⟩, by decide⟩

theorem Param.oneLine_text {p : Param} (h : Unbroken p.atoms) : OneLine p.text := by
  obtain ⟨pat, ty⟩ := p
  simp only [Param.atoms, unbroken_append] at h
  have hpat : OneLine pat.text := by
    cases pat with
    | ident mutable name =>
        rw [Pattern.text, oneLine_append]
        exact ⟨by cases mutable <;> decide, (unbroken_cons.mp h.1).1⟩
    | raw text => exact (unbroken_cons.mp h.1).1
  simp only [Param.text, oneLine_append]
  exact ⟨⟨hpat, by decide⟩, Ty.oneLine_text ty h.2⟩

theorem Receiver.oneLine_text (r : Receiver) : OneLine r.text := by
  obtain ⟨ref, mutable⟩ := r
  cases ref <;> cases mutable <;> decide

theorem unbroken_flatMap {α : Type} {f : α → List String} {xs : List α} :
    Unbroken (xs.flatMap f) ↔ ∀ x ∈ xs, Unbroken (f x) :=
  List.forall_mem_flatMap

theorem Func.oneLine_signature {f : Func} (h : Unbroken f.atoms) : OneLine f.signature := by
  simp only [Func.atoms, unbroken_cons, unbroken_append, unbroken_flatMap] at h
  obtain ⟨hname, -, hparams, hret, -⟩ := h
  have hitems : OneLine (", ".intercalate
      (f.receiver.toList.map Receiver.text ++ f.params.map Param.text)) := by
    refine oneLine_intercalate (by decide) (List.forall_mem_append.mpr ⟨?_, ?_⟩)
    · exact List.forall_mem_map.mpr fun r _ => r.oneLine_text
    · exact List.forall_mem_map.mpr fun p hp => Param.oneLine_text (hparams p hp)
  have hret : OneLine (Func.arrow f.ret) := by
    cases hf : f.ret with
    | none => decide
    | some t =>
        rw [hf] at hret
        rw [Func.arrow, oneLine_append]
        exact ⟨by decide, Ty.oneLine_text t hret⟩
  have hpub : OneLine (if f.pub then "pub " else "") := by cases f.pub <;> decide
  have hasync : OneLine (if f.isAsync then "async " else "") := by cases f.isAsync <;> decide
  simp only [Func.signature, oneLine_append]
  exact ⟨⟨⟨⟨⟨⟨⟨hpub, hasync⟩, by decide⟩, hname⟩, by decide⟩, hitems⟩, by decide⟩, hret⟩

theorem indents_attrLines {d : Int} (hd : 0 ≤ d) {attrs : List Attr}
    (h : ∀ a ∈ attrs, Unbroken a.atoms) :
    Indents true true (attrLines d attrs) (attrLines (d + 1) attrs) := by
  unfold attrLines
  induction attrs with
  | nil => exact .nil
  | cons a attrs ih =>
      obtain ⟨ha, hattrs⟩ := List.forall_mem_cons.mp h
      rw [List.map_cons, List.map_cons, String.join_cons, String.join_cons]
      exact ((Attr.oneLine_text ha).indents.line hd).append (ih hattrs)

theorem Func.signature_ne_empty (f : Func) : f.signature ≠ "" := by
  simp [Func.signature, String.append_eq_empty_iff]

/-- A function one level deeper: every line is indented. -/
theorem Func.indents_render {d : Int} (hd : 0 ≤ d) {f : Func} (h : Unbroken f.atoms) :
    Indents true false (f.render d) (f.render (d + 1)) := by
  have hsignature := Func.oneLine_signature h
  simp only [Func.atoms, unbroken_cons, unbroken_append, unbroken_flatMap] at h
  obtain ⟨-, hattrs, -, -, hbody⟩ := h
  have hhead : Indents true false (attrLines d f.attrs ++ indent d ++ f.signature)
      (attrLines (d + 1) f.attrs ++ indent (d + 1) ++ f.signature) := by
    rw [String.append_assoc, String.append_assoc]
    exact (indents_attrLines hd hattrs).append
      (hsignature.indents.deeper hd f.signature_ne_empty)
  unfold Func.render
  cases hf : f.body with
  | none =>
      have hmark : OneLine ";" := by decide
      exact hhead.followed hmark
  | some b =>
      rw [hf] at hbody
      have hopen : Indents false true " \x7b\n" " \x7b\n" := ⟨rfl, rfl⟩
      exact hhead.append
        ((hopen.append (Stmt.indents_lines (d + 1) (by omega) b hbody)).closing hd)

/-- What an impl block is rendered with in front of its functions. -/
def Impl.opening (i : Impl) : String :=
  attrLines 0 i.attrs ++ "impl " ++
    (match i.trait with
      | none => ""
      | some p => p.text ++ " for ") ++
    i.self ++ " \x7b\n"

/-- In an impl block every function is rendered as on its own, with every line indented and a line
break behind it; and a block of statements one level deeper has every line indented. -/
theorem methods_indented :
    (∀ i : Impl, (∀ f ∈ i.fns, Unbroken f.atoms) →
      i.render = i.opening ++ "\n".intercalate
        (i.fns.map fun f => indentLines (Decl.func f).render ++ "\n") ++ "\x7d") ∧
      ∀ (b : Block) (d : Nat), Unbroken (Stmt.atomsAll b) →
        Block.text (d + 1) b = indentLines (Block.text d b) := by
  constructor
  · intro i h
    have hfns : i.fns.map (fun f => f.render 1 ++ "\n") =
        i.fns.map fun f => indentLines (Decl.func f).render ++ "\n" := by
      refine List.map_congr_left fun f hf => ?_
      exact congrArg (· ++ "\n") (Func.indents_render (Int.le_refl 0) (h f hf)).eq_indentLines
    rw [← hfns]
    rfl
  · intro b d h
    exact (Stmt.indents_lines d (Int.natCast_nonneg d) b h).eq_indentLines

/-- A method whose body has a block within the arguments of a call and a conditional within it. -/
def nestedMethod : Func :=
  { name := "find", pub := true, attrs := [⟨Path.of "inline", "", false⟩],
    receiver := some { ref := true }, params := [⟨.ident false "id", Ty.named "u64"⟩],
    body := some [
      .expr (.call (.path (Path.of "send")) [.block [
        .expr (.cond (.path (Path.of "id")) [.expr (.lit "1") false] (some [])) false]]) true] }

theorem methods_indented_nested :
    Unbroken nestedMethod.atoms ∧
      ({ self := "Pet", fns := [nestedMethod] } : Impl).render =
        "impl Pet \x7b\n" ++ (indentLines (Decl.func nestedMethod).render ++ "\n") ++ "\x7d" ∧
      (Decl.func nestedMethod).render = "#[inline]\npub fn find(&self, id: u64) \x7b\n" ++
        "    send(\x7b\n        if id \x7b\n            1\n        \x7d else \x7b\n" ++
        "        \x7d\n    \x7d);\n\x7d" := by
  have hunbroken : Unbroken nestedMethod.atoms := by
    unfold Unbroken
    decide +kernel
  refine ⟨hunbroken, ?_, by decide +kernel⟩
  exact methods_indented.1 { self := "Pet", fns := [nestedMethod] }
    (List.forall_mem_singleton.mpr hunbroken)

end ClientLoom
