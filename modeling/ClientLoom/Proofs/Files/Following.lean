import ClientLoom.FileTree
import ClientLoom.Proofs.Files.Paths
import ClientLoom.Proofs.Outcome

/-! # Where paths lead

A path that can be followed leads to the place that its parts name (`placeOf_of_follows`), and
everything on the way to that place is a directory (`isDir_of_follows`).  More directories do not
change where a path leads (`follows_mono`).  A clean path leads to its place as soon as everything
on the way is a directory (`follows_of_clean`); other paths may run into a directory that is
missing. -/

namespace ClientLoom

namespace SlashPath

variable {p : String} {done names : List String} {rooted : Bool}


end SlashPath

namespace FileTree

open SlashPath (IsName Normal resolvePart isAbsolute parts)

variable {t t' : FileTree} {p q : Place} {path name : String} {names : List String} {o : Obstacle}

/-! ### Directories -/

theorem isFile_iff : t.isFile p = true ↔ ∃ f ∈ t.files, f.1 = p := by
  unfold isFile text?
  cases h : t.files.lookup p with
  | none =>
      rw [List.lookup_eq_none_iff] at h
      simp only [Option.isSome_none, Bool.false_eq_true, false_iff, not_exists, not_and]
      exact fun f hf hp => (bne_iff_ne.mp (h f hf)) hp.symm
  | some s =>
      obtain ⟨before, behind, hfiles, -⟩ := List.lookup_eq_some_iff.mp h
      simp only [Option.isSome_some, true_iff]
      exact ⟨(p, s), by rw [hfiles]; simp, rfl⟩

theorem isDir_iff : t.isDir p = true ↔
    isStart p = true ∨ (∃ d ∈ t.dirs, p <+: d) ∨ ∃ q, t.isFile q = true ∧ p <+: q ∧ p ≠ q := by
  simp only [isDir, Bool.or_eq_true, List.any_eq_true, List.isPrefixOf_iff_prefix, Bool.and_eq_true,
    bne_iff_ne, or_assoc, isFile_iff]
  refine or_congr_right (or_congr_right ⟨?_, ?_⟩)
  · rintro ⟨f, hf, hp⟩
    exact ⟨f.1, ⟨f, hf, rfl⟩, hp⟩
  · rintro ⟨_, ⟨f, hf, rfl⟩, hp⟩
    exact ⟨f, hf, hp⟩

theorem isStart_iff : isStart p = true ↔ p = ["/"] ∨ ∀ x ∈ p, x = ".." := by
  simp [isStart]

theorem isStart_of_isPrefix (h : p <+: q) (hq : isStart q = true) : isStart p = true := by
  rw [isStart_iff] at hq ⊢
  rcases hq with rfl | hups
  · cases p with
    | nil => exact .inr (by simp)
    | cons x p =>
        obtain ⟨rfl, hp⟩ := List.cons_prefix_cons.mp h
        exact .inl (by rw [List.prefix_nil.mp hp])
  · exact .inr fun x hx => hups x (h.subset hx)

/-- What is on the way to a directory is a directory. -/
theorem isDir_of_isPrefix (h : p <+: q) (hq : t.isDir q = true) : t.isDir p = true := by
  rw [isDir_iff] at hq ⊢
  rcases hq with hstart | ⟨d, hd, hqd⟩ | ⟨r, hr, hqr, hne⟩
  · exact .inl (isStart_of_isPrefix h hstart)
  · exact .inr (.inl ⟨d, hd, h.trans hqd⟩)
  · refine .inr (.inr ⟨r, hr, h.trans hqr, ?_⟩)
    rintro rfl
    exact hne (hqr.eq_of_length_le h.length_le)

theorem isDir_of_isStart (h : isStart p = true) : t.isDir p = true := isDir_iff.mpr (.inl h)

/-- What is on the way to a file is a directory. -/
theorem isDir_of_isFile (h : p <+: q) (hne : p ≠ q) (hq : t.isFile q = true) :
    t.isDir p = true :=
  isDir_iff.mpr (.inr (.inr ⟨q, hq, h, hne⟩))

/-! ### One name -/

/-- The place that a name leads to from a directory. -/
def step (p : Place) (name : String) : Place :=
  if name = "" || name = "." then p else if name = ".." then above p else p ++ [name]

theorem follow_eq_ok_iff : t.follow p name = .ok q ↔ t.isDir p = true ∧ step p name = q := by
  unfold follow step
  split
  · next hdir => simp [hdir]
  · next hdir => simp [hdir]

theorem step_empty (p : Place) : step p "" = p := rfl

/-- Where paths start. -/
def origin (rooted : Bool) : Place := if rooted then ["/"] else []

theorem isStart_origin (rooted : Bool) : isStart (origin rooted) = true := by
  cases rooted <;> decide

theorem placeOf_eq (path : String) : placeOf path = origin (isAbsolute path) ++ parts path := by
  unfold placeOf origin
  split <;> rfl

theorem not_isStart_place {rooted : Bool} {done : List String} (h : Normal rooted (name :: done))
    (hname : name ≠ "..") : isStart (origin rooted ++ (name :: done).reverse) = false := by
  rw [Bool.eq_false_iff, ne_eq, isStart_iff]
  rintro (hroot | hups)
  · cases rooted with
    | true => simp [origin] at hroot
    | false =>
        rw [origin, if_neg Bool.false_ne_true, List.nil_append] at hroot
        have hmem : "/" ∈ name :: done := by
          rw [← List.mem_reverse, hroot]
          exact List.mem_singleton_self _
        exact h.no_slash hmem (by decide)
  · exact hname (hups name (by simp))

/-- Steps up can be taken in any order. -/
theorem reverse_ups {done : List String} (h : ∀ x ∈ done, x = "..") :
    (".." :: done).reverse = ".." :: done.reverse := by
  rw [List.eq_replicate_of_mem h, List.reverse_cons, List.reverse_replicate,
    ← List.replicate_succ', List.replicate_succ]

/-- Following a name resolves it against the parts before it. -/
theorem step_place {rooted : Bool} {done : List String} (h : Normal rooted done) (name : String) :
    step (origin rooted ++ done.reverse) name =
      origin rooted ++ (resolvePart rooted done name).reverse := by
  unfold step resolvePart
  split
  · rfl
  split
  · cases done with
    | nil => cases rooted <;> decide
    | cons top rest =>
        dsimp only
        split
        · next htop =>
            obtain ⟨-, hname | ⟨-, rfl, hups⟩⟩ := id h
            · exact absurd htop hname.ne_dots
            subst htop
            have hall : ∀ x ∈ ".." :: rest, x = ".." := List.forall_mem_cons.mpr ⟨rfl, hups⟩
            have hstart : isStart (".." :: rest).reverse = true :=
              isStart_iff.mpr (.inr fun x hx => hall x (List.mem_reverse.mp hx))
            have hroot : ((".." :: rest).reverse == ["/"]) = false := by
              rw [beq_eq_false_iff_ne]
              intro heq
              have := hall "/" (by rw [← List.mem_reverse, heq]; exact List.mem_singleton_self _)
              exact absurd this (by decide)
            rw [origin, if_neg Bool.false_ne_true, List.nil_append, List.nil_append, above, hroot,
              hstart, reverse_ups hall]
            rfl
        · next htop =>
            have hstart := not_isStart_place h htop
            have hroot : (origin rooted ++ (top :: rest).reverse == ["/"]) = false := by
              rw [beq_eq_false_iff_ne]
              intro heq
              rw [heq] at hstart
              exact absurd hstart (by decide)
            rw [above, hroot, hstart, List.reverse_cons, ← List.append_assoc]
            simp
  · simp

/-! ### Whole paths -/

theorem foldlM_follow_mono (h : ∀ p, t.isDir p = true → t'.isDir p = true)
    (hp : names.foldlM t.follow p = .ok q) : names.foldlM t'.follow p = .ok q := by
  induction names generalizing p with
  | nil => exact hp
  | cons name names ih =>
      rw [List.foldlM_cons, bind_eq_ok_iff] at hp ⊢
      obtain ⟨r, hr, hq⟩ := hp
      rw [follow_eq_ok_iff] at hr
      exact ⟨r, follow_eq_ok_iff.mpr ⟨h p hr.1, hr.2⟩, ih hq⟩

theorem foldl_step_of_follow (h : names.foldlM t.follow p = .ok q) : names.foldl step p = q := by
  induction names generalizing p with
  | nil => exact Except.ok.inj h
  | cons name names ih =>
      rw [List.foldlM_cons, bind_eq_ok_iff] at h
      obtain ⟨r, hr, hq⟩ := h
      rw [List.foldl_cons, (follow_eq_ok_iff.mp hr).2]
      exact ih hq

theorem foldl_step_place {rooted : Bool} {done : List String} (h : Normal rooted done)
    (hnames : ∀ name ∈ names, '/' ∉ name.toList) :
    names.foldl step (origin rooted ++ done.reverse) =
      origin rooted ++ (names.foldl (resolvePart rooted) done).reverse := by
  induction names generalizing done with
  | nil => rfl
  | cons name names ih =>
      obtain ⟨hname, hnames⟩ := List.forall_mem_cons.mp hnames
      rw [List.foldl_cons, List.foldl_cons, step_place h, ih (h.resolvePart hname) hnames]

theorem placeOf_eq_foldl (path : String) :
    placeOf path = (Text.split path '/').foldl step (origin (isAbsolute path)) := by
  have hslash : ∀ name ∈ Text.split path '/', '/' ∉ name.toList :=
    fun _ => Text.not_mem_of_mem_split
  have hnormal : Normal (isAbsolute path) [] := trivial
  have h := foldl_step_place hnormal hslash
  rw [List.reverse_nil, List.append_nil] at h
  rw [h, placeOf_eq, parts]

/-- A path that can be followed leads to the place that its parts name. -/
theorem placeOf_of_follows (h : t.follows path = .ok p) : placeOf path = p := by
  rw [placeOf_eq_foldl]
  exact foldl_step_of_follow h

theorem follows_mono (h : ∀ p, t.isDir p = true → t'.isDir p = true)
    (hp : t.follows path = .ok p) : t'.follows path = .ok p :=
  foldlM_follow_mono h hp

/-- Empty names and dots lead nowhere else. -/
theorem foldlM_follow_stay (h : t.isDir p = true)
    (hnames : ∀ name ∈ names, name = "" ∨ name = ".") : names.foldlM t.follow p = .ok p := by
  induction names with
  | nil => rfl
  | cons name names ih =>
      obtain ⟨hname, hnames⟩ := List.forall_mem_cons.mp hnames
      rw [List.foldlM_cons, bind_eq_ok_iff]
      refine ⟨p, follow_eq_ok_iff.mpr ⟨h, ?_⟩, ih hnames⟩
      rcases hname with rfl | rfl <;> rfl

/-- Whether everything on the way to a place is a directory. -/
def HasWayTo (t : FileTree) (p : Place) : Prop := ∀ q, q <+: p → q ≠ p → t.isDir q = true

theorem hasWayTo_of_isDir (h : t.isDir p = true) : t.HasWayTo p :=
  fun _ hq _ => isDir_of_isPrefix hq h

theorem HasWayTo.append (h : t.isDir p = true) (name : String) : t.HasWayTo (p ++ [name]) := by
  intro q hq hne
  rcases List.prefix_concat_iff.mp hq with rfl | hq
  · exact absurd rfl hne
  · exact isDir_of_isPrefix hq h

theorem above_isPrefix (p : Place) : isStart (above p) = true ∨ above p <+: p := by
  unfold above
  split
  · exact .inr (List.prefix_refl p)
  split
  · next hroot hstart =>
      rcases isStart_iff.mp hstart with rfl | hups
      · exact absurd (beq_self_eq_true _) hroot
      · exact .inl (isStart_iff.mpr (.inr (List.forall_mem_cons.mpr ⟨rfl, hups⟩)))
  · exact .inr (List.dropLast_prefix p)

/-- A name leads from a directory to a directory or to a new name in it. -/
theorem isDir_step_or (h : t.isDir p = true) (name : String) :
    t.isDir (step p name) = true ∨ step p name = p ++ [name] := by
  unfold step
  split
  · exact .inl h
  split
  · rcases above_isPrefix p with hstart | hbelow
    · exact .inl (isDir_of_isStart hstart)
    · exact .inl (isDir_of_isPrefix hbelow h)
  · exact .inr rfl

theorem HasWayTo.step (h : t.isDir p = true) (name : String) : t.HasWayTo (step p name) := by
  rcases isDir_step_or h name with hdir | hname
  · exact hasWayTo_of_isDir hdir
  · rw [hname]
    exact HasWayTo.append h name

theorem hasWayTo_of_foldlM (hp : t.HasWayTo p) (h : names.foldlM t.follow p = .ok q) :
    t.HasWayTo q := by
  refine foldlM_induction (fun name _ r r' _ hstep => ?_) hp h
  obtain ⟨hdir, rfl⟩ := follow_eq_ok_iff.mp hstep
  exact .step hdir name

/-- Everything on the way to the end of a path is a directory. -/
theorem hasWayTo_of_follows (h : t.follows path = .ok p) : t.HasWayTo p := by
  refine hasWayTo_of_foldlM (hasWayTo_of_isDir (isDir_of_isStart ?_)) h
  exact isStart_origin (isAbsolute path)

/-! ### Clean paths -/

theorem foldlM_follow_normal {rooted : Bool} {done : List String}
    (h : Normal rooted (names.reverse ++ done))
    (hway : t.HasWayTo (origin rooted ++ done.reverse ++ names)) :
    names.foldlM t.follow (origin rooted ++ done.reverse) =
      .ok (origin rooted ++ done.reverse ++ names) := by
  induction names generalizing done with
  | nil =>
      rw [List.append_nil]
      rfl
  | cons name names ih =>
      rw [List.reverse_cons, List.append_assoc, List.singleton_append] at h
      have hnormal : Normal rooted (name :: done) := h.of_append
      have hdir : t.isDir (origin rooted ++ done.reverse) = true :=
        hway _ (List.prefix_append _ _) (by simp)
      have hstep : step (origin rooted ++ done.reverse) name =
          origin rooted ++ (name :: done).reverse := by
        rw [step_place hnormal.1, SlashPath.resolvePart_normal hnormal]
      have hplace : origin rooted ++ done.reverse ++ name :: names =
          origin rooted ++ (name :: done).reverse ++ names := by
        simp
      rw [hplace] at hway ⊢
      rw [List.foldlM_cons, bind_eq_ok_iff]
      exact ⟨_, follow_eq_ok_iff.mpr ⟨hdir, hstep⟩, ih h hway⟩

/-- A clean path leads to its place when everything on the way is a directory. -/
theorem follows_of_clean (h : SlashPath.clean path = path) (hway : t.HasWayTo (placeOf path)) :
    t.follows path = .ok (placeOf path) := by
  have hnormal := SlashPath.normal_parts path
  have hpath : path = SlashPath.ofParts (isAbsolute path) (parts path) := h.symm
  rw [placeOf_eq] at hway ⊢
  have hstart : t.isDir (origin (isAbsolute path)) = true := isDir_of_isStart (isStart_origin _)
  by_cases hnil : parts path = []
  · have hstay : ∀ name ∈ Text.split path '/', name = "" ∨ name = "." := by
      rw [hnil] at hpath
      rw [hpath]
      cases isAbsolute path <;> decide
    rw [hnil, List.append_nil]
    exact foldlM_follow_stay hstart hstay
  · have hsplit := SlashPath.split_ofParts hnormal (by simpa using hnil)
    rw [List.reverse_reverse, ← hpath] at hsplit
    have hfollow : (parts path).foldlM t.follow (origin (isAbsolute path) ++ [].reverse) =
        .ok (origin (isAbsolute path) ++ [].reverse ++ parts path) :=
      foldlM_follow_normal (by simpa using hnormal) (by simpa using hway)
    rw [List.reverse_nil, List.append_nil] at hfollow
    show (Text.split path '/').foldlM t.follow (origin (isAbsolute path)) = _
    rw [hsplit]
    split
    · rw [List.foldlM_cons, bind_eq_ok_iff]
      exact ⟨_, follow_eq_ok_iff.mpr ⟨hstart, step_empty _⟩, hfollow⟩
    · exact hfollow

/-! ### Directories and what is in them -/

theorem placeOf_clean (path : String) : placeOf (SlashPath.clean path) = placeOf path := by
  rw [placeOf_eq, placeOf_eq, SlashPath.isAbsolute_clean, SlashPath.parts_clean]

theorem isAbsolute_append {a : String} (h : a ≠ "") (b : String) :
    isAbsolute (a ++ b) = isAbsolute a := by
  obtain ⟨c, cs, hcs⟩ := List.exists_cons_of_ne_nil (fun h' => h (String.toList_eq_nil_iff.mp h'))
  simp [isAbsolute, hcs]

theorem placeOf_append_slash (a : String) (h : '/' ∉ name.toList) :
    placeOf (a ++ "/" ++ name) = step (placeOf (a ++ "/")) name := by
  have hsplit (b : String) :
      Text.split (a ++ "/" ++ b) '/' = Text.split a '/' ++ Text.split b '/' :=
    Text.split_append a b '/'
  have hname : Text.split name '/' = [name] := Text.split_of_not_mem h
  have hempty : Text.split (a ++ "/") '/' = Text.split a '/' ++ [""] := by
    have := hsplit ""
    rwa [String.append_empty] at this
  rw [placeOf_eq_foldl, placeOf_eq_foldl, isAbsolute_append (by simp) name, hsplit, hname, hempty,
    List.foldl_append, List.foldl_append]
  rfl

theorem placeOf_slash {a : String} (h : a ≠ "") : placeOf (a ++ "/") = placeOf a := by
  have hsplit := Text.split_append a "" '/'
  rw [String.append_empty] at hsplit
  have hends : Text.split (a ++ "/") '/' = Text.split a '/' ++ [""] := hsplit
  rw [placeOf_eq_foldl, placeOf_eq_foldl, isAbsolute_append h, hends, List.foldl_append]
  rfl

/-- A path below a directory leads to a name in its place. -/
theorem placeOf_join {a : String} (ha : a ≠ "") (h : '/' ∉ name.toList) :
    placeOf (SlashPath.join a name) = step (placeOf a) name := by
  rw [SlashPath.join, if_neg ha, placeOf_clean, placeOf_append_slash a h, placeOf_slash ha]

/-- What stands behind the last slash of a path. -/
def lastName (path : String) : String := String.ofList (SlashPath.lastPart path.toList)

/-- What stands in front of it. -/
def front (path : String) : String :=
  String.ofList (path.toList.reverse.dropWhile (· != '/')).reverse

theorem front_append_lastName (path : String) : front path ++ lastName path = path := by
  rw [← String.toList_inj, String.toList_append, front, lastName, SlashPath.lastPart,
    String.toList_ofList, String.toList_ofList, ← List.reverse_append,
    List.takeWhile_append_dropWhile, List.reverse_reverse]

theorem no_slash_lastName (path : String) : '/' ∉ (lastName path).toList := by
  rw [lastName, SlashPath.lastPart, String.toList_ofList, List.mem_reverse]
  intro hmem
  have hall : (path.toList.reverse.takeWhile (· != '/')).all (· != '/') = true := List.all_takeWhile
  exact absurd (List.all_eq_true.mp hall _ hmem) (by decide)

theorem front_eq (path : String) : front path = "" ∨ ∃ a, front path = a ++ "/" := by
  unfold front
  cases h : path.toList.reverse.dropWhile (· != '/') with
  | nil => exact .inl rfl
  | cons c cs =>
      have hc : c = '/' := by
        have := List.head?_dropWhile_not (· != '/') path.toList.reverse
        rw [h] at this
        simpa using this
      refine .inr ⟨String.ofList cs.reverse, ?_⟩
      rw [hc, ← String.toList_inj]
      simp

/-- A path leads to its last name in the place of its directory. -/
theorem placeOf_eq_step (path : String) :
    placeOf path = step (placeOf (SlashPath.dir path)) (lastName path) := by
  have hdir : placeOf (SlashPath.dir path) = placeOf (front path) := placeOf_clean _
  have hslash := no_slash_lastName path
  rw [hdir]
  conv_lhs => rw [← front_append_lastName path]
  rcases front_eq path with hempty | ⟨a, ha⟩
  · have habs : isAbsolute (lastName path) = false := by
      rw [isAbsolute, beq_eq_false_iff_ne]
      exact fun h => hslash (List.mem_of_mem_head? h)
    rw [hempty, String.empty_append, placeOf_eq_foldl, habs, Text.split_of_not_mem hslash]
    rfl
  · rw [ha]
    exact placeOf_append_slash a hslash

theorem clean_ne_empty (path : String) : SlashPath.clean path ≠ "" := by
  rw [SlashPath.clean_eq, SlashPath.ofParts]
  split
  · simp
  split
  · decide
  · next h => exact h

theorem trimEnd_of_lastName (h : lastName path ≠ "") : SlashPath.trimEnd path = path.toList := by
  rw [lastName, SlashPath.lastPart] at h
  unfold SlashPath.trimEnd
  cases hreverse : path.toList.reverse with
  | nil => simpa using hreverse.symm
  | cons c cs =>
      have hc : c ≠ '/' := by
        rintro rfl
        simp [hreverse] at h
      have hpath := congrArg List.reverse hreverse
      rw [List.reverse_reverse] at hpath
      simp [hc, hpath]

theorem base_of_lastName (h : lastName path ≠ "") : SlashPath.base path = lastName path := by
  have hne : path ≠ "" := by
    rintro rfl
    exact h rfl
  have htrim := trimEnd_of_lastName h
  have hchars : path.toList.isEmpty = false := by simpa using hne
  rw [SlashPath.base, if_neg hne, htrim, hchars, lastName]
  rfl

/-- A clean path ends with a name, unless it is the root. -/
theorem lastName_of_clean (h : SlashPath.clean path = path) : path = "/" ∨ lastName path ≠ "" := by
  have hpath : path = SlashPath.ofParts (isAbsolute path) (parts path) := h.symm
  by_cases hnil : parts path = []
  · rw [hnil] at hpath
    cases habs : isAbsolute path with
    | true => exact .inl (by rw [hpath, habs]; rfl)
    | false =>
        refine .inr ?_
        rw [hpath, habs]
        decide
  · refine .inr fun hempty => ?_
    have hnormal := SlashPath.normal_parts path
    have hsplit := SlashPath.split_ofParts hnormal (by simpa using hnil)
    rw [List.reverse_reverse, ← hpath] at hsplit
    have hlast : (Text.split path '/').getLast? = (parts path).getLast? := by
      rw [hsplit]
      split
      · rw [List.getLast?_cons, List.getLast?_eq_some_getLast hnil, Option.getD_some]
      · rfl
    have hfront := front_append_lastName path
    rw [hempty, String.append_empty] at hfront
    rcases front_eq path with hpath' | ⟨a, ha⟩
    · rw [hpath'] at hfront
      exact clean_ne_empty path (h.trans hfront.symm)
    · have hends : Text.split path '/' = Text.split a '/' ++ [""] := by
        have := Text.split_append a "" '/'
        rw [String.append_empty] at this
        rw [← hfront, ha]
        exact this
      rw [hends, List.getLast?_concat] at hlast
      have hmem : "" ∈ (parts path).reverse :=
        List.mem_reverse.mpr (List.mem_of_getLast? hlast.symm)
      exact hnormal.ne_empty hmem rfl

theorem dir_ne_empty (path : String) : SlashPath.dir path ≠ "" := clean_ne_empty _

/-- The directory of a path and its last name lead to the place of the path. -/
theorem placeOf_join_base (h : lastName path ≠ "") :
    placeOf (SlashPath.join (SlashPath.dir path) (SlashPath.base path)) = placeOf path := by
  rw [base_of_lastName h, placeOf_join (dir_ne_empty path) (no_slash_lastName path),
    ← placeOf_eq_step]

/-- Slashes at the end of the path to a directory lead nowhere else. -/
theorem follows_slashes {a : String} (ha : a ≠ "") (h : t.follows a = .ok p)
    (hdir : t.isDir p = true) (k : Nat) :
    t.follows (a ++ String.ofList (List.replicate k '/')) = .ok p := by
  induction k generalizing a with
  | zero => simpa using h
  | succ k ih =>
      have hsplit := Text.split_append a "" '/'
      rw [String.append_empty] at hsplit
      have hslash : t.follows (a ++ "/") = .ok p := by
        have hends : Text.split (a ++ "/") '/' = Text.split a '/' ++ [""] := hsplit
        unfold follows at h ⊢
        rw [hends, isAbsolute_append ha, List.foldlM_append, bind_eq_ok_iff]
        exact ⟨p, h, foldlM_follow_stay hdir (by simp)⟩
      have hmore : a ++ String.ofList (List.replicate (k + 1) '/') =
          a ++ "/" ++ String.ofList (List.replicate k '/') := by
        rw [← String.toList_inj]
        simp [List.replicate_succ]
      rw [hmore]
      exact ih (by simp) hslash

end FileTree
end ClientLoom
