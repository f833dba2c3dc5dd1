import ClientLoom.Generate
import ClientLoom.Proofs.Files.Writing
import ClientLoom.Proofs.Manifest.RoundTrip
import ClientLoom.Proofs.Pipeline.Stages

/-! # What a run plans and writes

A run has four units (`names_of_run`).  Its manifest lists them, and can be written and read again
when the version and the names of modules hold characters only (`isWritable_manifestOf`).  No unit
differs from the manifest itself (`Manifest.changed_self`) and every unit differs from no manifest.
What a plan writes is a run of actions (`Plan.write_eq_ok_iff`), at the places of the units and of
the manifest. -/

namespace ClientLoom

/-! ### Manifests -/

namespace Manifest

variable {m : Manifest} {e : Entry}

theorem unit?_of_mem (h : (m.units.map Entry.name).Nodup) (he : e ∈ m.units) :
    m.unit? e.name = some e := by
  unfold unit?
  generalize m.units = es at h he
  induction es with
  | nil => cases he
  | cons f es ih =>
      obtain ⟨hfresh, hnodup⟩ := List.nodup_cons.mp h
      rcases List.mem_cons.mp he with rfl | he
      · rw [List.find?_cons_of_pos (by simp)]
      · have hne : f.name ≠ e.name := fun heq => hfresh (heq ▸ List.mem_map_of_mem he)
        rw [List.find?_cons_of_neg (by simpa using hne), ih hnodup he]

/-- No unit differs from the same manifest. -/
theorem changed_self (h : (m.units.map Entry.name).Nodup) : m.changed (some m) = [] := by
  have hkept : m.units.filter (!isKept (some m) ·) = [] := by
    refine List.filter_eq_nil_iff.mpr fun e he => ?_
    have hunit := unit?_of_mem h he
    simp [isKept, hunit]
  rw [changed, hkept, List.map_nil]

theorem changed_none (m : Manifest) : m.changed none = m.units.map Entry.name := by
  have hnew : m.units.filter (!isKept none ·) = m.units :=
    List.filter_eq_self.mpr fun _ _ => rfl
  rw [changed, hnew]

end Manifest

/-! ### Digests -/

theorem Text.isPlain_hexDigits (width n : Nat) : ∀ c ∈ hexDigits width n, isRawByte c = false := by
  induction width generalizing n with
  | zero => intro c hc; cases hc
  | succ width ih =>
      intro c hc
      rw [hexDigits, List.mem_append, List.mem_singleton] at hc
      rcases hc with hc | rfl
      · exact ih (n / 16) c hc
      · have hdigits : ∀ m < 16, isRawByte (Nat.digitChar m) = false := by decide
        exact hdigits _ (Nat.mod_lt n (by decide))

theorem Digest.isPlain_ofText (text : String) : Text.IsPlain (ofText text) := by
  intro c hc
  rw [ofText, String.toList_ofList] at hc
  obtain ⟨w, -, hc⟩ := List.mem_flatMap.mp hc
  exact Text.isPlain_hexDigits 8 w.toNat c hc

namespace Generate

open FileTree (Action actionsFor placeOf run?)

variable {t t' : FileTree} {c : Config} {version : String} {cancelled : Bool} {p : Plan}
  {units : List SourceFile}

/-! ### Units -/

/-- The names of the units. -/
def unitNames : List String := ["models", "apis", Pipeline.paramsUnit, Pipeline.buildersUnit]

theorem names_of_run {s : Settings} {parts : List Load.Part} {out : Pipeline.Output}
    (h : (Pipeline.run s cancelled parts).result = .ok out) :
    out.units.map SourceFile.name = unitNames := by
  unfold Pipeline.run at h
  rw [Logged.result_bind, bind_eq_ok_iff] at h
  obtain ⟨r, -, h⟩ := h
  obtain rfl := Pipeline.eq_false_of_stages h
  obtain ⟨_, -, _, -, _, -, _, _, -, _, _, -, _, -, rfl⟩ := Pipeline.result_stages_eq_ok_iff.mp h
  rfl

theorem manifestOf_eq (version : String) (units : List SourceFile) :
    manifestOf version units =
      { generator := "restitch"
        version := version
        units := units.map fun f => Manifest.Entry.of (unitFile f) f (f.render version) } := by
  have hfold (m : Manifest) :
      units.foldl (fun m f => m.add (unitFile f) f (f.render version)) m =
        { m with
          units := m.units ++
            units.map fun f => Manifest.Entry.of (unitFile f) f (f.render version) } := by
    induction units generalizing m with
    | nil => rw [List.foldl_nil, List.map_nil, List.append_nil]
    | cons f fs ih =>
        rw [List.foldl_cons, ih, Manifest.add, List.append_assoc]
        rfl
  rw [manifestOf, hfold]
  rfl

theorem names_manifestOf (version : String) (units : List SourceFile) :
    (manifestOf version units).units.map Manifest.Entry.name = units.map SourceFile.name := by
  rw [manifestOf_eq, List.map_map]
  rfl

/-- The manifest of the units can be written when the texts that it repeats can. -/
theorem isWritable_manifestOf (hnames : units.map SourceFile.name = unitNames)
    (hversion : Text.IsPlain version)
    (hunits : ∀ e ∈ (manifestOf version units).units,
      (∀ s ∈ e.modules, Text.IsPlain s) ∧ Width.fits e.decls = true) :
    (manifestOf version units).IsWritable := by
  have hplain : ∀ name ∈ unitNames, Text.IsPlain name ∧ Text.IsPlain (name ++ ".rs") := by
    decide +kernel
  rw [manifestOf_eq] at hunits ⊢
  refine ⟨fun c hc => ?_, hversion, fun e he => ?_⟩
  · have : Text.IsPlain "restitch" := by decide +kernel
    exact this c hc
  · obtain ⟨hmodules, hdecls⟩ := hunits e he
    obtain ⟨f, hf, rfl⟩ := List.mem_map.mp he
    obtain ⟨hname, hfile⟩ := hplain f.name (hnames ▸ List.mem_map_of_mem hf)
    exact ⟨hname, hfile, hmodules, hdecls, Digest.isPlain_ofText _⟩

/-! ### Plans -/

/-- The manifest of the run before, if it can be read. -/
def known (t : FileTree) (path : String) : Option Manifest :=
  match Manifest.read t path with
  | .ok prev => prev
  | .error _ => none

theorem result_previous (t : FileTree) (path version : String) :
    (previous t path version).result = .ok (known t path) := by
  unfold previous known
  cases Manifest.read t path with
  | error f => rfl
  | ok prev =>
      cases prev with
      | none => rfl
      | some m =>
          dsimp only
          split <;> rfl

/-- The plan for rendered units. -/
def planOf (t : FileTree) (c : Config) (version : String) (out : Pipeline.Output) : Plan where
  files := out.units.map fun f => (unitFile f, f.render version)
  manifest := manifestOf version out.units
  changed := (manifestOf version out.units).changed (known t (manifestPath c))

theorem plan_eq_ok_iff : (plan t c version cancelled).result = .ok p ↔
    ∃ s, Settings.ofConfig c = .ok s ∧ ∃ parts, (load t c cancelled).result = .ok parts ∧
      ∃ out, (Pipeline.run s cancelled parts).result = .ok out ∧ planOf t c version out = p := by
  unfold plan
  simp only [Logged.result_bind, Logged.result_ofExcept, Logged.result_pure, bind_eq_ok_iff,
    result_previous, Except.ok.injEq, exists_eq_left']
  rfl

/-- The manifest that a run knows of is what its path holds. -/
theorem known_eq (t : FileTree) (path : String) :
    known t path = (t.read path).toOption.bind Manifest.decode? := by
  unfold known Manifest.read FileTree.read
  rcases t.resolve path with (_ | _) | p
  · rfl
  · rfl
  · dsimp only
    cases t.text? p with
    | none => rfl
    | some text => cases hdecode : Manifest.decode? text <;> simp [Except.toOption, hdecode]

/-! ### Writing -/

/-- What a run that has a plan does to the files. -/
def Plan.actions (p : Plan) (c : Config) : List Action :=
  actionsFor c.output p.files ++
    actionsFor (SlashPath.dir (manifestPath c))
      [(SlashPath.base (manifestPath c), p.manifest.encode)]

theorem Plan.write_eq_ok_iff :
    p.write c t = (t', .ok ()) ↔ (p.actions c).foldlM run? t = some t' := by
  rw [Plan.actions, List.foldlM_append]
  unfold Plan.write
  rcases hunits : t.writeAll c.output p.files with ⟨t₁, e | ⟨⟩⟩
  · have hnone : (actionsFor c.output p.files).foldlM run? t = none := by
      refine Option.eq_none_iff_forall_ne_some.mpr fun t₂ h => ?_
      rw [FileTree.writeAll_eq_ok_iff.mpr h] at hunits
      cases (Prod.mk.inj hunits).2
    rw [hnone]
    exact ⟨fun h => (nomatch (Prod.mk.inj h).2), fun h => (nomatch h)⟩
  · dsimp only
    rw [FileTree.writeAll_eq_ok_iff, FileTree.writeAll_eq_ok_iff.mp hunits, Option.bind_eq_bind,
      Option.bind_some]

/-- The places of the files that a run writes. -/
def writtenPlaces (c : Config) : List Place :=
  (unitNames.map fun name => placeOf (SlashPath.join c.output (name ++ ".rs"))) ++
    [placeOf (SlashPath.join (SlashPath.dir (manifestPath c)) (SlashPath.base (manifestPath c)))]

theorem placeOf_mem_writtenPlaces {path text : String}
    (hfiles : p.files.map Prod.fst = unitNames.map (· ++ ".rs"))
    (h : .write path text ∈ p.actions c) : placeOf path ∈ writtenPlaces c := by
  rw [Plan.actions, actionsFor, actionsFor, List.mem_append] at h
  rw [writtenPlaces, List.mem_append]
  have hplaces : (unitNames.map fun name => placeOf (SlashPath.join c.output (name ++ ".rs"))) =
      (p.files.map Prod.fst).map fun file => placeOf (SlashPath.join c.output file) := by
    rw [hfiles, List.map_map]
    rfl
  rw [hplaces, List.map_map]
  rcases h with h | h
  · obtain ⟨f, hf, heq⟩ : ∃ f ∈ p.files, Action.write (SlashPath.join c.output f.1) f.2 =
        .write path text := by simpa using h
    obtain ⟨rfl, -⟩ := Action.write.inj heq
    exact .inl (List.mem_map_of_mem hf)
  · refine .inr ?_
    simp only [List.map_cons, List.map_nil, List.mem_cons, List.not_mem_nil, or_false, reduceCtorEq,
      false_or, Action.write.injEq] at h
    rw [h.1]
    exact List.mem_singleton_self _

/-- The text of the manifest is written last. -/
theorem textAt?_manifest (p : Plan) (c : Config) :
    FileTree.textAt? (p.actions c) (placeOf (SlashPath.join (SlashPath.dir (manifestPath c))
      (SlashPath.base (manifestPath c)))) = some p.manifest.encode := by
  rw [Plan.actions, FileTree.textAt?_append]
  simp [actionsFor, FileTree.textAt?, Action.textAt?]

theorem isProper_actions (h : c.output ≠ "") : ∀ a ∈ p.actions c, a.IsProper := by
  intro a ha
  rw [Plan.actions, actionsFor, actionsFor, List.mem_append, List.mem_cons, List.mem_cons] at ha
  rcases ha with (rfl | ha) | rfl | ha
  · exact h
  · obtain ⟨f, -, rfl⟩ := List.mem_map.mp ha
    trivial
  · exact FileTree.dir_ne_empty _
  · obtain ⟨f, -, rfl⟩ := List.mem_map.mp ha
    trivial

/-- A run succeeds when its plan does and everything is written. -/
theorem run_eq_ok_iff {s : Summary} :
    (run t c version cancelled).1 = t' ∧ (run t c version cancelled).2.result = .ok s ↔
      ∃ p, (plan t c version cancelled).result = .ok p ∧ p.write c t = (t', .ok ()) ∧
        p.summary c = s := by
  unfold run
  dsimp only
  rcases hplan : (plan t c version cancelled).result with f | p
  · simp
  · rcases hwrite : p.write c t with ⟨t₁, f | ⟨⟩⟩ <;> simp [hwrite]

end Generate
end ClientLoom
