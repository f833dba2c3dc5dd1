import ClientLoom.Proofs.Files.Following

/-! # Writing files again

Making directories and writing files is a run of actions, each of which can fail.  Files and
directories only come to be (`Grows`): a run removes none and makes no directory of a file.  After a
run each of its actions is done (`done_of_run`): its directories are there and its files hold what
was written last at their places.  An action that is done succeeds again and makes nothing new
(`run?_of_done`).  So a run that succeeded succeeds again and leaves every file and directory as it
is (`run_again`). -/

namespace ClientLoom.FileTree

variable {t t' u : FileTree} {p q : Place} {path text : String}

/-! ### Putting a file -/

theorem lookup_filter_ne (fs : List (Place × String)) (h : q ≠ p) :
    (fs.filter (·.1 != p)).lookup q = fs.lookup q := by
  induction fs with
  | nil => rfl
  | cons f fs ih =>
      by_cases hf : f.1 = p
      · have hq : (q == f.1) = false := by
          rw [hf, beq_eq_false_iff_ne]
          exact h
        rw [List.filter_cons_of_neg (by simp [hf]), List.lookup_cons, hq, ih]
      · rw [List.filter_cons_of_pos (by simp [hf]), List.lookup_cons, List.lookup_cons, ih]

theorem text?_put (t : FileTree) (p : Place) (text : String) (q : Place) :
    (t.put p text).text? q = if q = p then some text else t.text? q := by
  rw [put, text?, List.lookup_cons]
  split
  · next hq => rw [if_pos (beq_iff_eq.mp hq)]
  · next hq =>
      rw [beq_eq_false_iff_ne] at hq
      rw [if_neg hq, lookup_filter_ne _ hq]
      rfl

theorem isFile_put : (t.put p text).isFile q = true ↔ q = p ∨ t.isFile q = true := by
  rw [isFile, text?_put]
  by_cases hq : q = p <;> simp [hq, isFile]

theorem isDir_put : (t.put p text).isDir q = true ↔ t.isDir q = true ∨ q <+: p ∧ q ≠ p := by
  rw [isDir_iff, isDir_iff]
  simp only [isFile_put]
  constructor
  · rintro (h | h | ⟨r, rfl | hr, h⟩)
    · exact .inl (.inl h)
    · exact .inl (.inr (.inl h))
    · exact .inr h
    · exact .inl (.inr (.inr ⟨r, hr, h⟩))
  · rintro ((h | h | ⟨r, hr, h⟩) | h)
    · exact .inl h
    · exact .inr (.inl h)
    · exact .inr (.inr ⟨r, .inr hr, h⟩)
    · exact .inr (.inr ⟨p, .inl rfl, h⟩)

theorem isDir_addDir :
    ({ t with dirs := t.dirs ++ [p] } : FileTree).isDir q = true ↔ t.isDir q = true ∨ q <+: p := by
  rw [isDir_iff, isDir_iff]
  simp only [List.mem_append, List.mem_singleton]
  constructor
  · rintro (h | ⟨d, hd | rfl, h⟩ | h)
    · exact .inl (.inl h)
    · exact .inl (.inr (.inl ⟨d, hd, h⟩))
    · exact .inr h
    · exact .inl (.inr (.inr h))
  · rintro ((h | ⟨d, hd, h⟩ | h) | h)
    · exact .inl h
    · exact .inr (.inl ⟨d, .inl hd, h⟩)
    · exact .inr (.inr h)
    · exact .inr (.inl ⟨p, .inr rfl, h⟩)

/-! ### Growing -/

/-- Files and directories come to be, but none is removed and no file becomes a directory. -/
structure Grows (t t' : FileTree) : Prop where
  dirs : ∀ p, t.isDir p = true → t'.isDir p = true
  files : ∀ p, t.isFile p = true → t'.isFile p = true
  fresh : ∀ p, t.isFile p = true → t'.isDir p = true → t.isDir p = true

theorem Grows.refl (t : FileTree) : Grows t t := ⟨fun _ h => h, fun _ h => h, fun _ _ h => h⟩

theorem Grows.trans (h : Grows t t') (h' : Grows t' u) : Grows t u where
  dirs := fun p hp => h'.dirs p (h.dirs p hp)
  files := fun p hp => h'.files p (h.files p hp)
  fresh := fun p hp hdir => h.fresh p hp (h'.fresh p (h.files p hp) hdir)

theorem grows_put (h : t.HasWayTo p) (text : String) : Grows t (t.put p text) where
  dirs := fun _ hq => isDir_put.mpr (.inl hq)
  files := fun _ hq => isFile_put.mpr (.inr hq)
  fresh := fun q _ hq => (isDir_put.mp hq).elim id fun hway => h q hway.1 hway.2

theorem grows_addDir (h : t.HasWayTo p) (hp : t.isFile p = false) :
    Grows t { t with dirs := t.dirs ++ [p] } where
  dirs := fun _ hq => isDir_addDir.mpr (.inl hq)
  files := fun _ hq => hq
  fresh := fun q hfile hq => by
    rcases isDir_addDir.mp hq with hq | hbelow
    · exact hq
    · refine h q hbelow ?_
      rintro rfl
      rw [hp] at hfile
      cases hfile

/-! ### Making directories -/

/-- Whether a path leads to a directory. -/
def LeadsToDir (t : FileTree) (path : String) : Prop :=
  ∃ p, t.follows path = .ok p ∧ t.isDir p = true

theorem LeadsToDir.mono (h : ∀ p, t.isDir p = true → t'.isDir p = true) (hp : t.LeadsToDir path) :
    t'.LeadsToDir path := by
  obtain ⟨p, hfollows, hdir⟩ := hp
  exact ⟨p, follows_mono h hfollows, h p hdir⟩

theorem LeadsToDir.isDir (h : t.LeadsToDir path) : t.isDir (placeOf path) = true := by
  obtain ⟨p, hfollows, hdir⟩ := h
  rwa [placeOf_of_follows hfollows]

theorem resolve_eq_ok_iff : t.resolve path = .ok p ↔
    t.follows path = .ok p ∧ path ≠ "" ∧ (t.isFile p = true ∨ t.isDir p = true) := by
  unfold resolve
  rw [bind_eq_ok_iff]
  constructor
  · rintro ⟨q, hq, h⟩
    split at h
    · next hthere =>
        obtain rfl := Except.ok.inj h
        exact ⟨hq, by simpa using hthere⟩
    · cases h
  · rintro ⟨hp, hthere⟩
    exact ⟨p, hp, if_pos (by simpa using hthere)⟩

theorem makeLast_of_leadsToDir (hne : path ≠ "") (h : t.LeadsToDir path) :
    t.makeLast path = .ok t := by
  obtain ⟨p, hfollows, hdir⟩ := h
  rw [makeLast, resolve_eq_ok_iff.mpr ⟨hfollows, hne, .inr hdir⟩]
  exact if_pos hdir

theorem exists_trimEnd (path : String) :
    ∃ k, path = String.ofList (SlashPath.trimEnd path) ++ String.ofList (List.replicate k '/') := by
  have hslashes : path.toList.reverse.takeWhile (· == '/') =
      List.replicate (path.toList.reverse.takeWhile (· == '/')).length '/' := by
    refine List.eq_replicate_of_mem fun c hc => ?_
    have hall : (path.toList.reverse.takeWhile (· == '/')).all (· == '/') = true :=
      List.all_takeWhile
    exact beq_iff_eq.mp (List.all_eq_true.mp hall c hc)
  refine ⟨(path.toList.reverse.takeWhile (· == '/')).length, ?_⟩
  rw [← String.toList_inj, String.toList_append, String.toList_ofList, String.toList_ofList,
    SlashPath.trimEnd, ← List.reverse_replicate, ← hslashes, ← List.reverse_append,
    List.takeWhile_append_dropWhile, List.reverse_reverse]

/-- A path leads to a directory when it does so without the slashes at its end. -/
theorem leadsToDir_of_trimEnd (hne : SlashPath.trimEnd path ≠ [])
    (h : t.follows (String.ofList (SlashPath.trimEnd path)) = .ok p) (hdir : t.isDir p = true) :
    t.LeadsToDir path := by
  obtain ⟨k, hpath⟩ := exists_trimEnd path
  refine ⟨p, ?_, hdir⟩
  rw [hpath]
  exact follows_slashes (by simpa using hne) h hdir k

/-- Slashes alone lead to the root. -/
theorem leadsToDir_root (hne : path ≠ "") (h : SlashPath.trimEnd path = []) :
    t.LeadsToDir path := by
  obtain ⟨k, hpath⟩ := exists_trimEnd path
  have hroot : t.isDir ["/"] = true := isDir_of_isStart (by decide)
  have hfollows : t.follows "/" = .ok ["/"] := foldlM_follow_stay hroot (by decide)
  cases k with
  | zero =>
      rw [h] at hpath
      exact absurd hpath hne
  | succ k =>
      have hslash : path = "/" ++ String.ofList (List.replicate k '/') := by
        rw [hpath, h, ← String.toList_inj]
        simp [List.replicate_succ]
      refine ⟨["/"], ?_, hroot⟩
      rw [hslash]
      exact follows_slashes (by decide) hfollows hroot k

/-- The last directory of a path is there once it is made. -/
theorem makeLast_eq_ok (hne : path ≠ "") (h : t.makeLast path = .ok t') :
    Grows t t' ∧ t'.LeadsToDir path ∧ t'.text? = t.text? := by
  unfold makeLast at h
  split at h
  · next p hp =>
      split at h
      · next hdir =>
          obtain rfl := Except.ok.inj h
          exact ⟨.refl t, ⟨p, (resolve_eq_ok_iff.mp hp).1, hdir⟩, rfl⟩
      · cases h
  · next o hmissing =>
      split at h
      · cases h
      · next p hp =>
          split at h
          · cases h
          · next hfile =>
              obtain rfl := Except.ok.inj h
              have hgrows := grows_addDir (hasWayTo_of_follows hp) (Bool.eq_false_iff.mpr hfile)
              have hnew : ({ t with dirs := t.dirs ++ [p] } : FileTree).isDir p = true :=
                isDir_addDir.mpr (.inr (List.prefix_refl p))
              refine ⟨hgrows, ?_, rfl⟩
              by_cases hroot : SlashPath.trimEnd path = []
              · exact leadsToDir_root hne hroot
              · exact leadsToDir_of_trimEnd hroot (follows_mono hgrows.dirs hp) hnew

/-- Whether a path leads to a directory, and every path on its way too. -/
def HasMade (t : FileTree) (path : String) : Prop := ∀ stage ∈ stages path, t.LeadsToDir stage

theorem HasMade.mono (h : ∀ p, t.isDir p = true → t'.isDir p = true) (hp : t.HasMade path) :
    t'.HasMade path := fun stage hstage => (hp stage hstage).mono h

theorem mem_stages_go (done cs : List Char) : done ++ cs ∈ stages.go done cs := by
  induction cs generalizing done with
  | nil => simp [stages.go]
  | cons c cs ih =>
      have hmem := ih (done ++ [c])
      rw [List.append_assoc, List.singleton_append] at hmem
      rw [stages.go]
      split
      · exact List.mem_cons_of_mem _ hmem
      · exact hmem

theorem ne_nil_of_mem_stages_go {done cs stage : List Char} (hne : done ≠ [] ∨ cs ≠ [])
    (h : stage ∈ stages.go done cs) : stage ≠ [] := by
  induction cs generalizing done with
  | nil =>
      obtain rfl : stage = done := by simpa [stages.go] using h
      simpa using hne
  | cons c cs ih =>
      rw [stages.go] at h
      split at h
      · rcases List.mem_cons.mp h with rfl | h
        · simp
        · exact ih (.inl (by simp)) h
      · exact ih (.inl (by simp)) h

theorem mem_stages (path : String) : path ∈ stages path := by
  have h := mem_stages_go [] path.toList
  exact List.mem_map.mpr ⟨path.toList, h, String.ofList_toList⟩

theorem ne_empty_of_mem_stages {stage : String} (hne : path ≠ "") (h : stage ∈ stages path) :
    stage ≠ "" := by
  obtain ⟨cs, hcs, rfl⟩ := List.mem_map.mp h
  have := ne_nil_of_mem_stages_go (.inr (by simpa using hne)) hcs
  simpa using this

theorem makeDir_go_eq_ok {stages : List String} (hne : ∀ stage ∈ stages, stage ≠ "")
    (h : makeDir.go path t stages = (t', .ok ())) :
    Grows t t' ∧ (∀ stage ∈ stages, t'.LeadsToDir stage) ∧ t'.text? = t.text? := by
  induction stages generalizing t with
  | nil =>
      obtain ⟨rfl, -⟩ := Prod.mk.inj h
      exact ⟨.refl t, by simp, rfl⟩
  | cons stage stages ih =>
      obtain ⟨hstage, hstages⟩ := List.forall_mem_cons.mp hne
      rw [makeDir.go] at h
      split at h
      · next t₁ h₁ =>
          obtain ⟨hgrows, hleads, htext⟩ := makeLast_eq_ok hstage h₁
          obtain ⟨hgrows', hleads', htext'⟩ := ih hstages h
          exact ⟨hgrows.trans hgrows', List.forall_mem_cons.mpr ⟨hleads.mono hgrows'.dirs, hleads'⟩,
            htext'.trans htext⟩
      · cases (Prod.mk.inj h).2

/-- Making a directory makes those on its way and writes no file. -/
theorem makeDir_eq_ok (hne : path ≠ "") (h : t.makeDir path = (t', .ok ())) :
    Grows t t' ∧ t'.HasMade path ∧ t'.text? = t.text? :=
  makeDir_go_eq_ok (fun _ => ne_empty_of_mem_stages hne) h

/-- Making a directory that is there changes nothing. -/
theorem makeDir_of_hasMade (hne : path ≠ "") (h : t.HasMade path) :
    t.makeDir path = (t, .ok ()) := by
  have hgo : ∀ stages : List String, (∀ stage ∈ stages, stage ≠ "") →
      (∀ stage ∈ stages, t.LeadsToDir stage) → makeDir.go path t stages = (t, .ok ()) := by
    intro stages
    induction stages with
    | nil => exact fun _ _ => rfl
    | cons stage stages ih =>
        intro hnes hleads
        obtain ⟨hstage, hnes⟩ := List.forall_mem_cons.mp hnes
        obtain ⟨hlead, hleads⟩ := List.forall_mem_cons.mp hleads
        rw [makeDir.go, makeLast_of_leadsToDir hstage hlead]
        exact ih hnes hleads
  exact hgo _ (fun _ => ne_empty_of_mem_stages hne) h

/-! ### Writing a file -/

theorem write_eq_ok_iff : t.write path text = (t', .ok ()) ↔
    ∃ t₁, t.makeDir (SlashPath.dir path) = (t₁, .ok ()) ∧ t₁.isDir (placeOf path) = false ∧
      t₁.put (placeOf path) text = t' := by
  unfold write
  rcases hmake : t.makeDir (SlashPath.dir path) with ⟨t₁, f | ⟨⟩⟩
  · simp
  · by_cases hdir : t₁.isDir (placeOf path) = true <;> simp [hdir]

/-- The directory of a path that leads to no directory is the way to it. -/
theorem hasWayTo_of_dir (h : t.LeadsToDir (SlashPath.dir path)) : t.HasWayTo (placeOf path) := by
  rw [placeOf_eq_step]
  exact .step h.isDir (lastName path)

/-! ### Runs of actions -/

/-- What a run does to the files. -/
inductive Action where
  | makeDir (path : String)
  | write (path text : String)

/-- The files after an action, when it succeeds. -/
def run? (t : FileTree) (a : Action) : Option FileTree :=
  match (match a with
    | .makeDir path => t.makeDir path
    | .write path text => t.write path text) with
  | (t', .ok ()) => some t'
  | (_, .error _) => none

theorem run?_makeDir_eq_some_iff :
    t.run? (.makeDir path) = some t' ↔ t.makeDir path = (t', .ok ()) := by
  unfold run?
  dsimp only
  rcases t.makeDir path with ⟨t₁, f | ⟨⟩⟩ <;> simp

theorem run?_write_eq_some_iff :
    t.run? (.write path text) = some t' ↔ t.write path text = (t', .ok ()) := by
  unfold run?
  dsimp only
  rcases t.write path text with ⟨t₁, f | ⟨⟩⟩ <;> simp

theorem run?_makeDir_of_error {e : Failure} (h : t.makeDir path = (t', .error e)) :
    t.run? (.makeDir path) = none := by
  unfold run?
  dsimp only
  rw [h]

theorem run?_write_of_error {e : Failure} (h : t.write path text = (t', .error e)) :
    t.run? (.write path text) = none := by
  unfold run?
  dsimp only
  rw [h]

/-- Whether an action has a path. -/
def Action.IsProper : Action → Prop
  | .makeDir path => path ≠ ""
  | .write _ _ => True

/-- Whether an action is done: its directories are there, and a file is at its place. -/
def Action.IsDone (t : FileTree) : Action → Prop
  | .makeDir path => t.HasMade path
  | .write path _ =>
      t.HasMade (SlashPath.dir path) ∧ t.isFile (placeOf path) = true ∧
        t.isDir (placeOf path) = false

/-- What an action puts at a place. -/
def Action.textAt? (p : Place) : Action → Option String
  | .makeDir _ => none
  | .write path text => if p = placeOf path then some text else none

theorem Action.IsDone.mono {a : Action} (h : Grows t t') (ha : a.IsDone t) : a.IsDone t' := by
  cases a with
  | makeDir path => exact HasMade.mono h.dirs ha
  | write path text =>
      obtain ⟨hmade, hfile, hdir⟩ := ha
      refine ⟨hmade.mono h.dirs, h.files _ hfile, ?_⟩
      rw [Bool.eq_false_iff] at hdir ⊢
      exact fun hnew => hdir (h.fresh _ hfile hnew)

/-- A step of a run: files and directories come to be, the action is done, and only its file is
written. -/
theorem run?_eq_some {a : Action} (hproper : a.IsProper) (h : t.run? a = some t') :
    Grows t t' ∧ a.IsDone t' ∧ ∀ p, t'.text? p = (a.textAt? p).or (t.text? p) := by
  cases a with
  | makeDir path =>
      obtain ⟨hgrows, hmade, htext⟩ := makeDir_eq_ok hproper (run?_makeDir_eq_some_iff.mp h)
      exact ⟨hgrows, hmade, fun p => by rw [htext]; rfl⟩
  | write path text =>
      obtain ⟨t₁, hmake, hdir, rfl⟩ := write_eq_ok_iff.mp (run?_write_eq_some_iff.mp h)
      obtain ⟨hgrows, hmade, htext⟩ := makeDir_eq_ok (dir_ne_empty path) hmake
      have hway := hasWayTo_of_dir (hmade _ (mem_stages _))
      have hput := grows_put hway text
      refine ⟨hgrows.trans hput, ⟨hmade.mono hput.dirs, isFile_put.mpr (.inl rfl), ?_⟩,
        fun p => ?_⟩
      · rw [Bool.eq_false_iff] at hdir ⊢
        rw [ne_eq, isDir_put]
        rintro (hold | ⟨-, hne⟩)
        · exact hdir hold
        · exact hne rfl
      · rw [text?_put, htext, Action.textAt?]
        split <;> rfl

/-- Trees with the same files and directories, whatever the texts of the files. -/
structure SameShape (t t' : FileTree) : Prop where
  dirs : ∀ p, t.isDir p = t'.isDir p
  files : ∀ p, t.isFile p = t'.isFile p

theorem SameShape.refl (t : FileTree) : SameShape t t := ⟨fun _ => rfl, fun _ => rfl⟩

theorem SameShape.grows (h : SameShape t t') : Grows t t' where
  dirs := fun p hp => h.dirs p ▸ hp
  files := fun p hp => h.files p ▸ hp
  fresh := fun p _ hp => (h.dirs p).symm ▸ hp

theorem SameShape.trans (h : SameShape t t') (h' : SameShape t' u) : SameShape t u :=
  ⟨fun p => (h.dirs p).trans (h'.dirs p), fun p => (h.files p).trans (h'.files p)⟩

theorem sameShape_put (h : t.isFile p = true) (text : String) : SameShape t (t.put p text) where
  dirs := fun q => by
    rw [Bool.eq_iff_iff, isDir_put, or_iff_left_of_imp]
    exact fun hq => isDir_of_isFile hq.1 hq.2 h
  files := fun q => by
    rw [Bool.eq_iff_iff, isFile_put, or_iff_right_of_imp]
    rintro rfl
    exact h

/-- An action that is done succeeds again and makes nothing new. -/
theorem run?_of_done {a : Action} (hproper : a.IsProper) (h : a.IsDone t) :
    ∃ t', t.run? a = some t' ∧ SameShape t t' := by
  cases a with
  | makeDir path =>
      exact ⟨t, run?_makeDir_eq_some_iff.mpr (makeDir_of_hasMade hproper h), .refl t⟩
  | write path text =>
      obtain ⟨hmade, hfile, hdir⟩ := h
      have hmake := makeDir_of_hasMade (dir_ne_empty path) hmade
      exact ⟨_, run?_write_eq_some_iff.mpr (write_eq_ok_iff.mpr ⟨t, hmake, hdir, rfl⟩),
        sameShape_put hfile text⟩

/-- What a run puts at a place; of several texts the last one counts. -/
def textAt? : List Action → Place → Option String
  | [], _ => none
  | a :: as, p => (textAt? as p).or (a.textAt? p)

/-- After a run each of its actions is done, and its files hold what it wrote there last. -/
theorem done_of_run {as : List Action} (hproper : ∀ a ∈ as, a.IsProper)
    (h : as.foldlM run? t = some t') :
    Grows t t' ∧ (∀ a ∈ as, a.IsDone t') ∧ ∀ p, t'.text? p = (textAt? as p).or (t.text? p) := by
  induction as generalizing t with
  | nil =>
      obtain rfl := Option.some.inj h
      exact ⟨.refl t, by simp, fun _ => rfl⟩
  | cons a as ih =>
      obtain ⟨ha, has⟩ := List.forall_mem_cons.mp hproper
      rw [List.foldlM_cons] at h
      obtain ⟨t₁, h₁, h⟩ := Option.bind_eq_some_iff.mp h
      obtain ⟨hgrows, hdone, htext⟩ := run?_eq_some ha h₁
      obtain ⟨hgrows', hdones, htext'⟩ := ih has h
      refine ⟨hgrows.trans hgrows', List.forall_mem_cons.mpr ⟨hdone.mono hgrows', hdones⟩,
        fun p => ?_⟩
      rw [htext', htext, textAt?, Option.or_assoc]

/-- A run whose actions are done succeeds and makes nothing new. -/
theorem exists_run_of_done {as : List Action} (hproper : ∀ a ∈ as, a.IsProper)
    (h : ∀ a ∈ as, a.IsDone t) : ∃ t', as.foldlM run? t = some t' ∧ SameShape t t' := by
  induction as generalizing t with
  | nil => exact ⟨t, rfl, .refl t⟩
  | cons a as ih =>
      obtain ⟨ha, has⟩ := List.forall_mem_cons.mp hproper
      obtain ⟨hdone, hdones⟩ := List.forall_mem_cons.mp h
      obtain ⟨t₁, h₁, hshape⟩ := run?_of_done ha hdone
      obtain ⟨t', h', hshape'⟩ := ih has fun b hb => (hdones b hb).mono hshape.grows
      refine ⟨t', ?_, hshape.trans hshape'⟩
      rw [List.foldlM_cons, h₁]
      exact h'

/-- A run that succeeded succeeds again and leaves every file and directory as it is. -/
theorem run_again {as : List Action} (hproper : ∀ a ∈ as, a.IsProper)
    (h : as.foldlM run? t = some t') :
    ∃ u, as.foldlM run? t' = some u ∧ SameShape t' u ∧ ∀ p, u.text? p = t'.text? p := by
  obtain ⟨-, hdone, htext⟩ := done_of_run hproper h
  obtain ⟨u, hu, hshape⟩ := exists_run_of_done hproper hdone
  obtain ⟨-, -, htext'⟩ := done_of_run hproper hu
  refine ⟨u, hu, hshape, fun p => ?_⟩
  rw [htext', htext, ← Option.or_assoc, Option.or_self]

/-- What a run puts somewhere was put there by one of its actions. -/
theorem exists_write_of_textAt? {as : List Action} (h : textAt? as p = some text) :
    ∃ path, .write path text ∈ as ∧ p = placeOf path := by
  induction as with
  | nil => cases h
  | cons a as ih =>
      rcases Option.or_eq_some_iff.mp h with hlater | ⟨-, hhere⟩
      · obtain ⟨path, hmem, hp⟩ := ih hlater
        exact ⟨path, List.mem_cons_of_mem _ hmem, hp⟩
      · cases a with
        | makeDir path => cases hhere
        | write path text' =>
            rw [Action.textAt?, Option.ite_none_right_eq_some] at hhere
            obtain ⟨hp, htext⟩ := hhere
            exact ⟨path, Option.some.inj htext ▸ List.mem_cons_self, hp⟩

theorem textAt?_append (as bs : List Action) (p : Place) :
    textAt? (as ++ bs) p = (textAt? bs p).or (textAt? as p) := by
  induction as with
  | nil => rw [List.nil_append, textAt?, Option.or_none]
  | cons a as ih => rw [List.cons_append, textAt?, textAt?, ih, Option.or_assoc]

/-- Whether no place holds both a file and a directory. -/
def IsSound (t : FileTree) : Prop := ∀ p, t.isFile p = true → t.isDir p = false

theorem isSound_of_run {as : List Action} (hproper : ∀ a ∈ as, a.IsProper)
    (h : as.foldlM run? t = some t') (ht : t.IsSound) : t'.IsSound := by
  obtain ⟨hgrows, hdone, htext⟩ := done_of_run hproper h
  intro p hfile
  rw [isFile, htext] at hfile
  cases hwritten : textAt? as p with
  | some text =>
      obtain ⟨path, hmem, rfl⟩ := exists_write_of_textAt? hwritten
      exact (hdone _ hmem).2.2
  | none =>
      rw [hwritten, Option.none_or] at hfile
      rw [Bool.eq_false_iff]
      intro hdir
      have hold := hgrows.fresh p hfile hdir
      rw [ht p hfile] at hold
      cases hold

/-! ### Writing several files -/

/-- The actions that write files below a directory. -/
def actionsFor (dir : String) (files : List (String × String)) : List Action :=
  .makeDir dir :: files.map fun f => .write (SlashPath.join dir f.1) f.2

/-- After a failure no further file is written. -/
theorem foldl_andWrite_error (dir : String) (files : List (String × String)) (e : Failure) :
    files.foldl (andWrite dir) (t, .error e) = (t, .error e) := by
  induction files with
  | nil => rfl
  | cons f files ih => exact ih

theorem foldl_andWrite_eq_ok_iff {dir : String} {files : List (String × String)} :
    files.foldl (andWrite dir) (t, .ok ()) = (t', .ok ()) ↔
      (files.map fun f => Action.write (SlashPath.join dir f.1) f.2).foldlM run? t = some t' := by
  induction files generalizing t with
  | nil => simp
  | cons f files ih =>
      rw [List.foldl_cons, List.map_cons, List.foldlM_cons, andWrite]
      rcases hwrite : t.write (SlashPath.join dir f.1) f.2 with ⟨t₁, e | ⟨⟩⟩
      · rw [foldl_andWrite_error, run?_write_of_error hwrite]
        exact ⟨fun h => (nomatch h), fun h => (nomatch h)⟩
      · rw [run?_write_eq_some_iff.mpr hwrite]
        exact ih

theorem writeAll_eq_ok_iff {dir : String} {files : List (String × String)} :
    t.writeAll dir files = (t', .ok ()) ↔ (actionsFor dir files).foldlM run? t = some t' := by
  rw [writeAll, actionsFor, List.foldlM_cons]
  rcases hmake : t.makeDir dir with ⟨t₁, e | ⟨⟩⟩
  · rw [foldl_andWrite_error, run?_makeDir_of_error hmake]
    exact ⟨fun h => (nomatch h), fun h => (nomatch h)⟩
  · rw [run?_makeDir_eq_some_iff.mpr hmake]
    exact foldl_andWrite_eq_ok_iff

end ClientLoom.FileTree
