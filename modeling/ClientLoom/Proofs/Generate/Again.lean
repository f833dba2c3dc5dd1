import ClientLoom.CommandLine.Run
import ClientLoom.Proofs.Generate.Planning
import ClientLoom.Proofs.Load.Keeping

/-! # Generating twice

A second run after one that succeeded leaves every file and directory as it is (`generate_again`),
provided that the first one writes no file that loading looks at.  It succeeds as well, unless the
first run made a directory of the usual configuration file, and then it reports every unit as
unchanged exactly when the manifest can be read at its path.  That is so whenever the path of the
manifest is clean.  It need not be otherwise, since a path is read as it is but written to by way of
its directory and its last name. -/

namespace ClientLoom
namespace CommandLine

open FileTree (placeOf isBelow lastName Action Keeps run? textAt?)
open Generate (manifestPath writtenPlaces unitNames)

variable {around : Surroundings} {g : Given} {c : Config} {t t' : FileTree} {p : Generate.Plan}
  {watched : Place → Prop} (on : Bool)

/-! ### What loading looks at -/

/-- Whether loading the configuration and the dumps reads the file at a place, or would read one
that came to be there. -/
def Consults (g : Given) (c : Config) (p : Place) : Prop :=
  p = placeOf (Config.fileName (configFile g)) ∨
    (c.archive ≠ "" ∧ p = placeOf c.archive) ∨
    (c.archive = "" ∧ isBelow (placeOf c.input) p = true ∧
      Load.accepts [c.groups.models, c.groups.apis]
        ("/".intercalate (p.drop (placeOf c.input).length)) = true)

instance (g : Given) (c : Config) (p : Place) : Decidable (Consults g c p) :=
  inferInstanceAs (Decidable (_ ∨ _))

theorem configure_eq_ok_iff : configure around t g = .ok c ↔
    ∃ file, Config.readFile t (configFile g) = .ok file ∧
      ({ given := (g.values.filter fun v => boundKeys.contains v.1).map fun v =>
           (v.1, keyValue v.2)
         bound := boundKeys
         environment := around.environment
         file := file } : Config.Layers).config = .ok c := by
  unfold configure
  rw [bind_eq_ok_iff]

/-- The configuration is what it was, unless a directory has come to be where its file was looked
for in vain. -/
theorem configure_of_keeps (h : Keeps watched t t')
    (hfile : watched (placeOf (Config.fileName (configFile g))))
    (hc : configure around t g = .ok c)
    (hnone : configFile g = "" → t'.has Config.usualFile = true →
      t.has Config.usualFile = true) : configure around t' g = .ok c := by
  obtain ⟨file, hread, hlayers⟩ := configure_eq_ok_iff.mp hc
  exact configure_eq_ok_iff.mpr ⟨file, Config.readFile_of_keeps h hfile hread hnone, hlayers⟩

theorem had_of_configure {c' : Config} (h : Keeps watched t t')
    (hfile : watched (placeOf (Config.fileName (configFile g))))
    (hc : configure around t' g = .ok c') (hpath : configFile g = "")
    (hhas : t'.has Config.usualFile = true) : t.has Config.usualFile = true := by
  obtain ⟨file, hread, -⟩ := configure_eq_ok_iff.mp hc
  exact Config.had_of_readFile h hfile hread hpath hhas

/-- The configuration of a run has an output. -/
theorem output_ne_empty (hc : configure around t g = .ok c) : c.output ≠ "" := by
  obtain ⟨file, -, hlayers⟩ := configure_eq_ok_iff.mp hc
  unfold Config.Layers.config at hlayers
  split at hlayers
  · cases hlayers
  · next c' _ =>
      obtain ⟨_, hcheck, rfl⟩ := map_eq_ok_iff.mp hlayers
      unfold Config.check at hcheck
      obtain ⟨_, -, hcheck⟩ := bind_eq_ok_iff.mp hcheck
      obtain ⟨_, houtput, -⟩ := bind_eq_ok_iff.mp hcheck
      intro hempty
      rw [hempty] at houtput
      cases houtput

theorem load_of_keeps {cancelled : Bool} {parts : List Load.Part}
    (h : Keeps (Consults g c) t t') (hload : (Generate.load t c cancelled).result = .ok parts) :
    (Generate.load t' c cancelled).result = .ok parts := by
  unfold Generate.load at hload ⊢
  split
  · next harchive =>
      rw [if_pos harchive] at hload
      exact Load.result_archiveFile_of_keeps h (.inr (.inl ⟨harchive, rfl⟩)) hload
  · next harchive =>
      rw [if_neg harchive] at hload
      refine Load.result_directory_of_keeps h (fun q hbelow haccepts => ?_) hload
      exact .inr (.inr ⟨not_not.mp harchive, hbelow, by rwa [List.drop_left]⟩)

/-! ### A run that succeeded -/

/-- A run from files without contradiction that planned, wrote what it planned, and wrote nothing
that loading looks at. -/
structure Ran (around : Surroundings) (g : Given) (c : Config) (p : Generate.Plan)
    (t t' : FileTree) : Prop where
  sound : t.IsSound
  configured : configure around t g = .ok c
  planned : (Generate.plan t c around.version around.cancelled).result = .ok p
  written : p.write c t = (t', .ok ())
  apart : ∀ q ∈ writtenPlaces c, ¬ Consults g c q

theorem generate_of_configure (hc : configure around t g = .ok c) :
    (generate around t g on).files =
        (Generate.run t c around.version around.cancelled).1 ∧
      (generate around t g on).result =
        (Generate.run t c around.version around.cancelled).2.result.map fun _ => () := by
  unfold generate
  rw [hc]
  exact ⟨rfl, rfl⟩

theorem generate_of_failure {f : Failure} (hc : configure around t g = .error f) :
    (generate around t g on).files = t ∧ (generate around t g on).result = .error f := by
  unfold generate
  rw [hc]
  exact ⟨rfl, rfl⟩

/-- A run that succeeded has written its plan. -/
theorem exists_plan_of_generate (hc : configure around t g = .ok c)
    (h : (generate around t g on).result = .ok ()) :
    ∃ p, (Generate.plan t c around.version around.cancelled).result = .ok p ∧
      p.write c t = ((generate around t g on).files, .ok ()) := by
  obtain ⟨hfiles, hresult⟩ := generate_of_configure on hc
  rw [hresult, map_eq_ok_iff] at h
  obtain ⟨s, hs, -⟩ := h
  obtain ⟨p, hp, hwrite, -⟩ := Generate.run_eq_ok_iff.mp ⟨rfl, hs⟩
  exact ⟨p, hp, hfiles ▸ hwrite⟩

/-- A run that writes its plan succeeds and prints its summary. -/
theorem generate_of_write (hc : configure around t g = .ok c)
    (hp : (Generate.plan t c around.version around.cancelled).result = .ok p)
    (hwrite : p.write c t = (t', .ok ())) :
    (generate around t g on).files = t' ∧ (generate around t g on).result = .ok () ∧
      (generate around t g on).printed = summaryText on (p.summary c) := by
  obtain ⟨hfiles, hs⟩ := Generate.run_eq_ok_iff.mpr ⟨p, hp, hwrite, rfl⟩
  unfold generate
  rw [hc]
  dsimp only
  rw [hs]
  exact ⟨hfiles, rfl, rfl⟩

namespace Ran

variable (h : Ran around g c p t t')
include h

theorem run : (p.actions c).foldlM run? t = some t' :=
  Generate.Plan.write_eq_ok_iff.mp h.written

theorem proper : ∀ a ∈ p.actions c, a.IsProper :=
  Generate.isProper_actions (output_ne_empty h.configured)

theorem sound_after : t'.IsSound := FileTree.isSound_of_run h.proper h.run h.sound

theorem exists_out : ∃ s parts out, Settings.ofConfig c = .ok s ∧
    (Generate.load t c around.cancelled).result = .ok parts ∧
    (Pipeline.run s around.cancelled parts).result = .ok out ∧
    Generate.planOf t c around.version out = p := by
  obtain ⟨s, hs, parts, hparts, out, hout, hp⟩ := Generate.plan_eq_ok_iff.mp h.planned
  exact ⟨s, parts, out, hs, hparts, hout, hp⟩

/-- The files that loading looks at are as they were. -/
theorem keeps : Keeps (Consults g c) t t' := by
  obtain ⟨hgrows, -, htext⟩ := FileTree.done_of_run h.proper h.run
  obtain ⟨s, parts, out, -, -, hout, rfl⟩ := h.exists_out
  refine ⟨hgrows, fun q hq => ?_⟩
  have hfiles : (Generate.planOf t c around.version out).files.map Prod.fst =
      unitNames.map (· ++ ".rs") := by
    rw [← Generate.names_of_run hout, List.map_map]
    exact List.map_map
  rw [htext]
  cases hwritten : textAt? ((Generate.planOf t c around.version out).actions c) q with
  | none => rfl
  | some text =>
      obtain ⟨path, hmem, rfl⟩ := FileTree.exists_write_of_textAt? hwritten
      exact absurd hq (h.apart _ (Generate.placeOf_mem_writtenPlaces hfiles hmem))

/-- A second run plans to write the same files. -/
theorem plan_again : ∃ p', (Generate.plan t' c around.version around.cancelled).result = .ok p' ∧
    p'.files = p.files ∧ p'.manifest = p.manifest ∧
    p'.changed = p.manifest.changed (Generate.known t' (manifestPath c)) := by
  obtain ⟨s, parts, out, hs, hparts, hout, rfl⟩ := h.exists_out
  exact ⟨Generate.planOf t' c around.version out,
    Generate.plan_eq_ok_iff.mpr ⟨s, hs, parts, load_of_keeps h.keeps hparts, out, hout, rfl⟩,
    rfl, rfl, rfl⟩

theorem names : p.manifest.units.map Manifest.Entry.name = unitNames := by
  obtain ⟨s, parts, out, -, -, hout, rfl⟩ := h.exists_out
  exact (Generate.names_manifestOf _ _).trans (Generate.names_of_run hout)

theorem isWritable (hversion : Text.IsPlain around.version)
    (hunits : ∀ e ∈ p.manifest.units,
      (∀ s ∈ e.modules, Text.IsPlain s) ∧ Width.fits e.decls = true) : p.manifest.IsWritable := by
  obtain ⟨s, parts, out, -, -, hout, rfl⟩ := h.exists_out
  exact Generate.isWritable_manifestOf (Generate.names_of_run hout) hversion hunits

/-! ### The manifest afterwards -/

theorem text_manifest : t'.text? (placeOf (SlashPath.join (SlashPath.dir (manifestPath c))
    (SlashPath.base (manifestPath c)))) = some p.manifest.encode := by
  obtain ⟨-, -, htext⟩ := FileTree.done_of_run h.proper h.run
  rw [htext, Generate.textAt?_manifest, Option.some_or]

theorem done_manifest : t'.HasMade (SlashPath.dir (manifestPath c)) ∧
    t'.isDir (placeOf (SlashPath.join (SlashPath.dir (manifestPath c))
      (SlashPath.base (manifestPath c)))) = false := by
  obtain ⟨-, hdone, -⟩ := FileTree.done_of_run h.proper h.run
  have hmade : Action.makeDir (SlashPath.dir (manifestPath c)) ∈ p.actions c := by
    simp [Generate.Plan.actions, FileTree.actionsFor]
  have hwrite : Action.write (SlashPath.join (SlashPath.dir (manifestPath c))
      (SlashPath.base (manifestPath c))) p.manifest.encode ∈ p.actions c := by
    simp [Generate.Plan.actions, FileTree.actionsFor]
  exact ⟨hdone _ hmade, (hdone _ hwrite).2.2⟩

/-- What is read at the path of the manifest is the manifest. -/
theorem eq_encode_of_read {text : String} (hread : t'.read (manifestPath c) = .ok text) :
    text = p.manifest.encode := by
  obtain ⟨q, hq, htext⟩ := FileTree.read_eq_ok_iff.mp hread
  obtain rfl := FileTree.placeOf_of_resolve hq
  have hne : lastName (manifestPath c) ≠ "" := by
    intro hempty
    -- the path ends with a slash: it leads to the directory that was made, where no file is
    have hdir := (h.done_manifest.1 _ (FileTree.mem_stages _)).isDir
    rw [FileTree.placeOf_eq_step, hempty, FileTree.step_empty] at htext
    have hnone := h.sound_after _ (by rw [FileTree.isFile, htext]; rfl)
    rw [hdir] at hnone
    cases hnone
  have hwritten := h.text_manifest
  rw [FileTree.placeOf_join_base hne, htext] at hwritten
  exact Option.some.inj hwritten

/-- A clean path of the manifest can be read. -/
theorem read_manifest (hclean : SlashPath.clean (manifestPath c) = manifestPath c) :
    t'.read (manifestPath c) = .ok p.manifest.encode := by
  have hne : lastName (manifestPath c) ≠ "" := by
    refine (FileTree.lastName_of_clean hclean).resolve_left fun hroot => ?_
    have hdir := h.done_manifest.2
    rw [hroot] at hdir
    have hstart : t'.isDir ["/"] = true := FileTree.isDir_of_isStart (by decide)
    have hplace : placeOf (SlashPath.join (SlashPath.dir "/") (SlashPath.base "/")) = ["/"] := by
      decide +kernel
    rw [hplace, hstart] at hdir
    cases hdir
  have htext := h.text_manifest
  rw [FileTree.placeOf_join_base hne] at htext
  have hfile : t'.isFile (placeOf (manifestPath c)) = true := by
    rw [FileTree.isFile, htext]
    rfl
  have hway : t'.HasWayTo (placeOf (manifestPath c)) :=
    fun q hq hne => FileTree.isDir_of_isFile hq hne hfile
  have hpath : manifestPath c ≠ "" := hclean ▸ FileTree.clean_ne_empty _
  exact FileTree.read_eq_ok_iff.mpr ⟨_, FileTree.resolve_eq_ok_iff.mpr
    ⟨FileTree.follows_of_clean hclean hway, hpath, .inl hfile⟩, htext⟩

/-- The second run knows the manifest of the first, if it can be read at its path. -/
theorem known_eq (hwritable : p.manifest.IsWritable) :
    Generate.known t' (manifestPath c) =
      if (t'.read (manifestPath c)).isOk then some p.manifest else none := by
  rw [Generate.known_eq]
  cases hread : t'.read (manifestPath c) with
  | error f => rfl
  | ok text =>
      rw [h.eq_encode_of_read hread]
      exact Manifest.decode?_encode hwritable

/-- A second run leaves everything as it is. -/
theorem again (hwritable : p.manifest.IsWritable) (hc : configure around t' g = .ok c) :
    (∀ q, (generate around t' g on).files.text? q = t'.text? q) ∧
      (∀ q, (generate around t' g on).files.isDir q = t'.isDir q) ∧
      (generate around t' g on).result = .ok () ∧
      ∃ s, (generate around t' g on).printed = summaryText on s ∧
        s.lines.map Generate.Line.unit = unitNames ∧
        ∀ l ∈ s.lines, l.changed = !(t'.read (manifestPath c)).isOk := by
  obtain ⟨u, hu, hshape, htext⟩ := FileTree.run_again h.proper h.run
  obtain ⟨p', hp', hfiles, hmanifest, hchanged⟩ := h.plan_again
  have hactions : p'.actions c = p.actions c := by
    rw [Generate.Plan.actions, hfiles, hmanifest]
    rfl
  have hwrite : p'.write c t' = (u, .ok ()) :=
    Generate.Plan.write_eq_ok_iff.mpr (hactions ▸ hu)
  obtain ⟨hafter, hresult, hprinted⟩ := generate_of_write on hc hp' hwrite
  rw [hafter]
  refine ⟨htext, fun q => (hshape.dirs q).symm, hresult, p'.summary c, hprinted, ?_, ?_⟩
  · rw [Generate.Plan.summary, hmanifest, List.map_map]
    exact h.names
  · have hnodup : (p.manifest.units.map Manifest.Entry.name).Nodup := by
      rw [h.names]
      decide
    intro l hl
    rw [Generate.Plan.summary, hmanifest] at hl
    obtain ⟨e, he, rfl⟩ := List.mem_map.mp hl
    show p'.changed.contains e.name = _
    rw [hchanged, h.known_eq hwritable]
    cases (t'.read (manifestPath c)).isOk with
    | true => rw [if_pos rfl, Manifest.changed_self hnodup]; rfl
    | false =>
        rw [if_neg (by decide), Manifest.changed_none]
        exact List.contains_iff_mem.mpr (List.mem_map_of_mem he)

end Ran

/-! ### Two runs -/

theorem clean_manifestPath (h : c.output ≠ "")
    (hclean : SlashPath.isAbsolute c.manifest = true → SlashPath.clean c.manifest = c.manifest) :
    SlashPath.clean (manifestPath c) = manifestPath c := by
  unfold manifestPath
  split
  · next habs => exact hclean habs
  · rw [SlashPath.join, if_neg h, SlashPath.clean_clean]

/-- A second run changes no file and no directory.  It succeeds unless the first made a directory
of the usual configuration file, and reports all units as unchanged when the manifest can be read at
its path, which is so for every relative and every clean path.  The manifest is read as it was
written. -/
theorem generate_again (hsound : t.IsSound) (hc : configure around t g = .ok c)
    (hok : (generate around t g on).result = .ok ())
    (hafter : (generate around t g on).files = t')
    (hversion : Text.IsPlain around.version)
    (hunits : ∀ p, (Generate.plan t c around.version around.cancelled).result = .ok p →
      ∀ e ∈ p.manifest.units, (∀ s ∈ e.modules, Text.IsPlain s) ∧ Width.fits e.decls = true)
    (hapart : ∀ q ∈ writtenPlaces c, ¬ Consults g c q) :
    (∀ q, (generate around t' g on).files.text? q = t'.text? q) ∧
      (∀ q, (generate around t' g on).files.isDir q = t'.isDir q) ∧
      ((generate around t' g on).result = .ok () ↔
        (configFile g = "" → t'.has Config.usualFile = true → t.has Config.usualFile = true)) ∧
      ((generate around t' g on).result = .ok () →
        ∃ s, (generate around t' g on).printed = summaryText on s ∧
          s.lines.map Generate.Line.unit = unitNames ∧
          ∀ l ∈ s.lines, l.changed = !(t'.read (manifestPath c)).isOk) ∧
      ∃ p, (Generate.plan t c around.version around.cancelled).result = .ok p ∧
        Manifest.decode? p.manifest.encode = some p.manifest ∧
        ((SlashPath.isAbsolute c.manifest = true → SlashPath.clean c.manifest = c.manifest) →
          t'.read (manifestPath c) = .ok p.manifest.encode) := by
  obtain ⟨p, hp, hwrite⟩ := exists_plan_of_generate on hc hok
  rw [hafter] at hwrite
  have hran : Ran around g c p t t' := ⟨hsound, hc, hp, hwrite, hapart⟩
  have hwritable := hran.isWritable hversion (hunits p hp)
  have hread : (SlashPath.isAbsolute c.manifest = true →
      SlashPath.clean c.manifest = c.manifest) →
      t'.read (manifestPath c) = .ok p.manifest.encode :=
    fun hclean => hran.read_manifest (clean_manifestPath (output_ne_empty hc) hclean)
  have hmanifest := Manifest.decode?_encode hwritable
  cases hc' : configure around t' g with
  | ok c' =>
      have hnone : configFile g = "" → t'.has Config.usualFile = true →
          t.has Config.usualFile = true := had_of_configure hran.keeps (.inl rfl) hc'
      have hsame := configure_of_keeps hran.keeps (.inl rfl) hc hnone
      obtain ⟨htext, hdir, hresult, hsummary⟩ := hran.again on hwritable hsame
      exact ⟨htext, hdir, ⟨fun _ => hnone, fun _ => hresult⟩, fun _ => hsummary, p, hp, hmanifest,
        hread⟩
  | error f =>
      obtain ⟨hfiles, hresult⟩ := generate_of_failure on hc'
      rw [hfiles, hresult]
      refine ⟨fun _ => rfl, fun _ => rfl, ⟨fun h => (nomatch h), fun hnone => ?_⟩,
        fun h => (nomatch h), p, hp, hmanifest, hread⟩
      rw [configure_of_keeps hran.keeps (.inl rfl) hc hnone] at hc'
      cases hc'

/-- A dump with one struct. -/
def petFiles : FileTree :=
  { files := [(["dump", "models", "pet.yaml"], "decls: [\x7bstruct: Pet\x7d]")] }

/-- A run of a release. -/
def release : Surroundings := { version := "v1.0.0-β" }

theorem isSound_petFiles : petFiles.IsSound := by
  intro p hp
  obtain ⟨f, hf, rfl⟩ := FileTree.isFile_iff.mp hp
  obtain rfl := List.mem_singleton.mp hf
  decide +kernel

theorem isPlain_release : Text.IsPlain release.version := by
  decide +kernel

/-- A second run with the usual configuration reports nothing. -/
theorem generate_again_pet :
    ∃ t', (generate release petFiles {} false).files = t' ∧
      (generate release petFiles {} false).result = .ok () ∧
      (generate release t' {} false).result = .ok () ∧
      (∀ q, (generate release t' {} false).files.text? q = t'.text? q) ∧
      ∃ s, (generate release t' {} false).printed = summaryText false s ∧
        s.lines.map Generate.Line.unit = unitNames ∧ ∀ l ∈ s.lines, l.changed = false := by
  obtain ⟨hok, hmade⟩ : (generate release petFiles {} false).result = .ok () ∧
      (generate release petFiles {} false).files.has Config.usualFile = false := by
    decide +kernel
  have hunits : ∀ p, (Generate.plan petFiles .usual release.version release.cancelled).result =
      .ok p → ∀ e ∈ p.manifest.units,
        (∀ s ∈ e.modules, Text.IsPlain s) ∧ Width.fits e.decls = true := by
    have hall : ∀ p ∈ (Generate.plan petFiles .usual release.version
        release.cancelled).result.toOption, ∀ e ∈ p.manifest.units,
          (∀ s ∈ e.modules, Text.IsPlain s) ∧ Width.fits e.decls = true := by decide +kernel
    exact fun p hp => hall p (toOption_eq_some_iff.mpr hp)
  have hapart : ∀ q ∈ writtenPlaces .usual, ¬ Consults {} .usual q := by decide +kernel
  obtain ⟨htext, -, hresult, hsummary, p, hp, -, hread⟩ := generate_again false isSound_petFiles
    (by decide +kernel) hok rfl isPlain_release hunits hapart
  have hagain := hresult.mpr fun _ h => absurd h (by rw [hmade]; decide)
  obtain ⟨s, hprinted, hnames, hlines⟩ := hsummary hagain
  refine ⟨_, rfl, hok, hagain, htext, s, hprinted, hnames, fun l hl => ?_⟩
  rw [hlines l hl, hread (by decide)]
  rfl

/-- A flag that names the usual configuration file as the output. -/
def intoUsualFile : Given := { values := [("output", .text Config.usualFile)] }

/-- The second run takes the output of the first for its configuration file. -/
theorem generate_again_fails :
    petFiles.IsSound ∧ Text.IsPlain release.version ∧
      ∃ c, configure release petFiles intoUsualFile = .ok c ∧
        (∀ q ∈ writtenPlaces c, ¬ Consults intoUsualFile c q) ∧
        ∃ t', (generate release petFiles intoUsualFile false).files = t' ∧
          (generate release petFiles intoUsualFile false).result = .ok () ∧
          (generate release t' intoUsualFile false).result =
            .error (.invalid "failed to read config file restitch.toml") := by
  have hruns : (generate release petFiles intoUsualFile false).result = .ok () ∧
      (generate release (generate release petFiles intoUsualFile false).files intoUsualFile
        false).result = .error (.invalid "failed to read config file restitch.toml") := by
    decide +kernel
  exact ⟨isSound_petFiles, isPlain_release, { Config.usual with output := Config.usualFile },
    by decide +kernel, by decide +kernel, _, rfl, hruns⟩

/-! A path of the manifest that ends with a slash is written to below that path and read as the
directory it has become, so all units are reported as changed each time. -/

example :
    let around := { release with environment := [("RESTITCH_MANIFEST", "/m.toml/")] }
    let t' := (generate around petFiles {} false).files
    t'.isFile ["/", "m.toml", "m.toml"] = true ∧ (t'.read "/m.toml/").isOk = false := by
  decide +kernel

end CommandLine
end ClientLoom
