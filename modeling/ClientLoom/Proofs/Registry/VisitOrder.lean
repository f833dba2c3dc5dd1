import Mathlib.Data.List.Sort
import ClientLoom.Proofs.Registry.MergeAll

/-! # Visiting names in any order

The parts of a group may be gathered in a table whose names come out in any order.  Then modules
are merged name by name in that order, appended to a source file and sorted in the end
(`SourceFile.mergeVisiting`).  The outcome is that of merging in increasing order
(`SourceFile.mergeVisiting_outcome`), and the registry that takes the merged modules from source
files is the one that `Registry.mergeAll` leaves (`Registry.mergeAllVisiting_eq_ok_iff`). -/

namespace ClientLoom

theorem nodup_eraseDups {α : Type} [BEq α] [LawfulBEq α] (xs : List α) : xs.eraseDups.Nodup := by
  induction hn : xs.length using Nat.strong_induction_on generalizing xs with
  | _ n ih =>
      cases xs with
      | nil => simp
      | cons x xs =>
          have hlt : (xs.filter fun y => !y == x).length < n := by
            have := List.length_filter_le (fun y => !y == x) xs
            rw [List.length_cons] at hn
            omega
          rw [List.eraseDups_cons, List.nodup_cons]
          refine ⟨?_, ih _ hlt _ rfl⟩
          simp [List.mem_eraseDups]

section keys
variable {α β : Type} [LinearOrder β] (key : α → β)

/-- The order by a key is transitive. -/
theorem key_le_trans (a b c : α) (hab : decide (key a ≤ key b) = true)
    (hbc : decide (key b ≤ key c) = true) : decide (key a ≤ key c) = true :=
  decide_eq_true (le_trans (of_decide_eq_true hab) (of_decide_eq_true hbc))

theorem key_le_total (a b : α) : (decide (key a ≤ key b) || decide (key b ≤ key a)) = true := by
  rw [Bool.or_eq_true]
  exact (le_total _ _).imp (fun h => decide_eq_true h) fun h => decide_eq_true h

/-- Sorting by a key keeps the elements of one key as they come. -/
theorem filter_mergeSort_key {p : α → Bool} {k : β} (h : ∀ x, p x = true → key x = k)
    (xs : List α) :
    (xs.mergeSort fun a b => decide (key a ≤ key b)).filter p = xs.filter p := by
  have htied : (xs.filter p).Pairwise fun a b => decide (key a ≤ key b) = true := by
    refine List.pairwise_of_forall_mem_list fun a ha b hb => decide_eq_true ?_
    rw [h a (List.mem_filter.mp ha).2, h b (List.mem_filter.mp hb).2]
  have hsub := List.sublist_mergeSort (key_le_trans key) (key_le_total key) htied
    List.filter_sublist
  have hsub := hsub.filter p
  rw [List.filter_filter] at hsub
  simp only [Bool.and_self] at hsub
  exact (hsub.eq_of_length ((List.mergeSort_perm xs _).filter p).length_eq.symm).symm

end keys

/-! ### Source files -/

namespace SourceFile

variable {parts : List Module} {order : List Ident}

/-- Merges the parts of one name. -/
def mergeNamed (parts : List Module) (n : Ident) : Except Failure Module :=
  Module.merge (parts.filter (·.name == n))

/-- Merges the parts of one name and appends the module. -/
def addMerged (parts : List Module) (f : SourceFile) (n : Ident) : Except Failure SourceFile := do
  let m ← mergeNamed parts n
  f.add m

/-- The order of modules by their names. -/
def byName (a b : Module) : Bool := decide (Text.rank a.name ≤ Text.rank b.name)

/-- Merges the parts name by name in the given order and sorts the modules. -/
def mergeVisiting (order : List Ident) (name : String) (parts : List Module) :
    Except Failure SourceFile :=
  (order.foldlM (addMerged parts) { name := name }).map fun f =>
    { f with modules := f.modules.mergeSort byName }

theorem name_of_mergeNamed {n : Ident} {m : Module} (h : mergeNamed parts n = .ok m) :
    m.name = n := by
  refine Module.name_of_merge (fun p hp => ?_) h
  simpa using (List.mem_filter.mp hp).2

theorem map_name_of_mapM {ms : List Module} (h : order.mapM (mergeNamed parts) = .ok ms) :
    ms.map Module.name = order := by
  rw [mapM_eq_ok_iff] at h
  induction h with
  | nil => rfl
  | cons hm _ ih => rw [List.map_cons, name_of_mergeNamed hm, ih]

theorem add_of_fresh {f : SourceFile} {m : Module} (h : ∀ x ∈ f.modules, x.name ≠ m.name) :
    f.add m = .ok { f with modules := f.modules ++ [m] } := by
  have hnone : f.module? m.name = none := by
    unfold module?
    rw [List.find?_eq_none]
    intro x hx
    simpa using h x hx
  unfold add
  rw [hnone]
  rfl

/-- The names are distinct, so appending never fails: the source file holds the merged modules in
the order of the visit. -/
theorem foldlM_addMerged {f : SourceFile} (horder : order.Nodup)
    (hfresh : ∀ n ∈ order, ∀ x ∈ f.modules, x.name ≠ n) :
    order.foldlM (addMerged parts) f =
      (order.mapM (mergeNamed parts)).map fun ms => { f with modules := f.modules ++ ms } := by
  induction order generalizing f with
  | nil =>
      show Except.ok f = .ok { f with modules := f.modules ++ [] }
      rw [List.append_nil]
  | cons n order ih =>
      obtain ⟨hn, horder⟩ := List.nodup_cons.mp horder
      rw [List.foldlM_cons, List.mapM_cons]
      unfold addMerged
      cases hm : mergeNamed parts n with
      | error e => rfl
      | ok m =>
          have hname : m.name = n := name_of_mergeNamed hm
          have hadd : f.add m = .ok { f with modules := f.modules ++ [m] } :=
            add_of_fresh fun x hx => hname ▸ hfresh n List.mem_cons_self x hx
          have hfresh' : ∀ n' ∈ order, ∀ x ∈ f.modules ++ [m], x.name ≠ n' := by
            intro n' hn' x hx
            rcases List.mem_append.mp hx with hx | hx
            · exact hfresh n' (List.mem_cons_of_mem _ hn') x hx
            · rw [List.mem_singleton.mp hx, hname]
              exact fun h => hn (h ▸ hn')
          show (f.add m >>= fun f => order.foldlM (addMerged parts) f) = _
          rw [hadd]
          show order.foldlM (addMerged parts) { f with modules := f.modules ++ [m] } = _
          rw [ih horder hfresh']
          cases order.mapM (mergeNamed parts) with
          | error e => rfl
          | ok ms =>
              show Except.ok { f with modules := f.modules ++ [m] ++ ms } =
                .ok { f with modules := f.modules ++ m :: ms }
              rw [List.append_assoc, List.singleton_append]

theorem names_increasing (parts : List Module) :
    (names parts).Pairwise fun m n => Text.rank m < Text.rank n := by
  have hle : (names parts).Pairwise fun m n => Text.rank m ≤ Text.rank n :=
    (List.pairwise_mergeSort (key_le_trans Text.rank) (key_le_total Text.rank) _).imp
      fun h => of_decide_eq_true h
  have hne : (names parts).Nodup := (List.mergeSort_perm _ _).nodup_iff.mpr (nodup_eraseDups _)
  exact hle.imp₂ (fun _ _ => Text.rank_lt_of_le_of_ne) hne

theorem mem_names {n : Ident} : n ∈ names parts ↔ ∃ p ∈ parts, p.name = n := by
  simp [names]

theorem increasing_of_mapM {ms : List Module}
    (h : (names parts).mapM (mergeNamed parts) = .ok ms) :
    ms.Pairwise fun a b => Text.rank a.name < Text.rank b.name := by
  rw [← List.pairwise_map (f := Module.name) (R := fun m n => Text.rank m < Text.rank n),
    map_name_of_mapM h]
  exact names_increasing parts

/-- Modules with increasing names are what sorting makes of any arrangement of them. -/
theorem mergeSort_byName {ms ms' : List Module}
    (hms : ms.Pairwise fun a b => Text.rank a.name < Text.rank b.name) (h : ms'.Perm ms) :
    ms'.mergeSort byName = ms := by
  have hsorted : (ms'.mergeSort byName).Pairwise fun a b => Text.rank a.name ≤ Text.rank b.name :=
    (List.pairwise_mergeSort (key_le_trans fun m : Module => Text.rank m.name)
      (key_le_total fun m : Module => Text.rank m.name) ms').imp fun h => of_decide_eq_true h
  have hperm : (ms'.mergeSort byName).Perm ms := (List.mergeSort_perm _ _).trans h
  refine List.Perm.eq_of_pairwise (fun a b ha hb hab hba => ?_) hsorted (hms.imp le_of_lt)
    hperm
  -- equal names belong to one module
  have hname : a.name = b.name := Text.rank_injective (le_antisymm hab hba)
  have hinj : (ms.map Module.name).Nodup :=
    List.pairwise_map.mpr (hms.imp Text.ne_of_rank_lt)
  exact List.inj_on_of_nodup_map hinj (hperm.mem_iff.mp ha) hb hname

/-- The order of the visit does not matter. -/
theorem mergeVisiting_outcome (name : String) (h : order.Perm (names parts)) :
    (mergeVisiting order name parts).toOption = (merge name parts).toOption := by
  have hnodup : order.Nodup :=
    h.nodup_iff.mpr ((names_increasing parts).imp Text.ne_of_rank_lt)
  have hfresh : ∀ n ∈ order, ∀ x ∈ ({ name := name } : SourceFile).modules, x.name ≠ n := by simp
  rw [toOption_eq_iff]
  intro f
  unfold mergeVisiting merge
  rw [foldlM_addMerged hnodup hfresh]
  simp only [map_eq_ok_iff]
  constructor
  · rintro ⟨_, ⟨ms, hms, rfl⟩, rfl⟩
    obtain ⟨ms', hms', hperm⟩ := mapM_perm h.symm hms
    refine ⟨ms', hms', ?_⟩
    rw [List.nil_append, mergeSort_byName (increasing_of_mapM hms') hperm.symm]
  · rintro ⟨ms, hms, rfl⟩
    obtain ⟨ms', hms', hperm⟩ := mapM_perm h hms
    refine ⟨_, ⟨ms', hms', rfl⟩, ?_⟩
    rw [List.nil_append, mergeSort_byName (increasing_of_mapM hms) hperm]

end SourceFile

/-! ### Registries -/

namespace Registry

variable {r r' : Registry} {g : String}

/-- Whether an entry of a group has parts that wait. -/
def Entry.waitsIn (g : String) (e : Entry) : Bool := e.group == some g && !e.parts.isEmpty

/-- What a merge of a group combines, name by name. -/
def sourcesOf (r : Registry) (g : String) : List Module :=
  (r.entries.filter (Entry.waitsIn g)).flatMap Entry.sources

/-- Takes the merged module of an entry from a source file, if it has one. -/
def Entry.takeFrom (ms : List Module) (e : Entry) : Entry :=
  match ms.find? (·.name == e.name) with
  | some m => { e with parts := [], merged := some m }
  | none => e

theorem Entry.takeFrom_eq_self {ms : List Module} {e : Entry} (h : ∀ m ∈ ms, m.name ≠ e.name) :
    e.takeFrom ms = e := by
  have hnone : ms.find? (fun m => m.name == e.name) = none := by
    rw [List.find?_eq_none]
    intro m hm
    simpa using h m hm
  unfold Entry.takeFrom
  rw [hnone]

theorem Entry.takeFrom_cons_of_eq {m : Module} {ms : List Module} {e : Entry}
    (h : m.name = e.name) : e.takeFrom (m :: ms) = { e with parts := [], merged := some m } := by
  simp [Entry.takeFrom, h]

theorem Entry.takeFrom_cons_of_ne {m : Module} {ms : List Module} {e : Entry}
    (h : m.name ≠ e.name) : e.takeFrom (m :: ms) = e.takeFrom ms := by
  have hne : (m.name == e.name) = false := by simpa using h
  simp [Entry.takeFrom, hne]

/-- Takes merged modules from a source file. -/
def takeFrom (r : Registry) (f : SourceFile) : Registry :=
  ⟨r.entries.map (Entry.takeFrom f.modules)⟩

theorem Entry.mergeIn_of_waitsIn {e : Entry} (h : e.waitsIn g) :
    e.mergeIn g = (Module.merge e.sources).map fun m =>
      { e with parts := [], merged := some m } := by
  simp only [Entry.waitsIn, Bool.and_eq_true, beq_iff_eq, Bool.not_eq_true'] at h
  unfold Entry.mergeIn Entry.mergeParts
  simp [h.1, h.2]

theorem Entry.mergeIn_of_not_waitsIn {e : Entry} (h : ¬ e.waitsIn g) : e.mergeIn g = .ok e := by
  unfold Entry.mergeIn
  split
  · next hg =>
      refine Entry.mergeParts_of_parts_eq_nil ?_
      simpa [Entry.waitsIn, hg] using h
  · rfl

theorem Entry.Filed.name_of_mem_sources {e : Entry} (he : e.Filed) {p : Module}
    (hp : p ∈ e.sources) : p.name = e.name := by
  unfold Entry.sources at hp
  split at hp
  · cases hp
  · exact he p hp

theorem Entry.Filed.name_of_merge_sources {e : Entry} (he : e.Filed) {m : Module}
    (h : Module.merge e.sources = .ok m) : m.name = e.name :=
  Module.name_of_merge (fun _ hp => he.name_of_mem_sources hp) h

/-- Merging the entries of a group in place is merging those with waiting parts and taking the
modules from the list of them. -/
theorem mapM_mergeIn {es : List Entry} (hes : Increasing es) (hfiled : ∀ e ∈ es, e.Filed) :
    es.mapM (Entry.mergeIn g) =
      ((es.filter (Entry.waitsIn g)).mapM fun e => Module.merge e.sources).map fun ms =>
        es.map (Entry.takeFrom ms) := by
  induction es with
  | nil => rfl
  | cons e es ih =>
      obtain ⟨he, hes⟩ := List.pairwise_cons.mp hes
      have hfiled' : ∀ e ∈ es, e.Filed := fun x hx => hfiled x (List.mem_cons_of_mem _ hx)
      rw [List.mapM_cons, ih hes hfiled']
      by_cases hw : e.waitsIn g
      · rw [List.filter_cons_of_pos hw, List.mapM_cons, Entry.mergeIn_of_waitsIn hw]
        cases hm : Module.merge e.sources with
        | error f => rfl
        | ok m =>
            have hname : m.name = e.name :=
              (hfiled e List.mem_cons_self).name_of_merge_sources hm
            cases (es.filter (Entry.waitsIn g)).mapM fun e => Module.merge e.sources with
            | error f => rfl
            | ok ms =>
                have htail : es.map (Entry.takeFrom (m :: ms)) = es.map (Entry.takeFrom ms) :=
                  List.map_congr_left fun x hx =>
                    Entry.takeFrom_cons_of_ne (hname ▸ Text.ne_of_rank_lt (he x hx))
                show Except.ok ({ e with parts := [], merged := some m } :: _) = .ok (_ :: _)
                rw [Entry.takeFrom_cons_of_eq hname, htail]
      · rw [List.filter_cons_of_neg hw, Entry.mergeIn_of_not_waitsIn hw]
        cases hms : (es.filter (Entry.waitsIn g)).mapM fun e => Module.merge e.sources with
        | error f => rfl
        | ok ms =>
            -- the modules belong to later entries
            have hself : e.takeFrom ms = e := by
              refine Entry.takeFrom_eq_self fun m hm => ?_
              obtain ⟨x, hx, hmx⟩ := exists_of_mem_mapM hms hm
              have hx : x ∈ es := List.mem_of_mem_filter hx
              rw [(hfiled' x hx).name_of_merge_sources hmx]
              exact (Text.ne_of_rank_lt (he x hx)).symm
            show Except.ok (e :: _) = .ok (_ :: _)
            rw [hself]

/-- The parts of one name are those of its entry. -/
theorem filter_flatMap_sources {es : List Entry} (hes : Increasing es)
    (hfiled : ∀ e ∈ es, e.Filed) {e : Entry} (he : e ∈ es) :
    (es.flatMap Entry.sources).filter (·.name == e.name) = e.sources := by
  have hown {x : Entry} (hx : x.Filed) (n : Ident) :
      x.sources.filter (·.name == n) = if x.name = n then x.sources else [] := by
    split
    · next h =>
        refine List.filter_eq_self.mpr fun p hp => ?_
        simpa [h] using hx.name_of_mem_sources hp
    · next h =>
        refine List.filter_eq_nil_iff.mpr fun p hp => ?_
        simpa [hx.name_of_mem_sources hp] using h
  induction es with
  | nil => cases he
  | cons x es ih =>
      obtain ⟨hx, hes⟩ := List.pairwise_cons.mp hes
      have hfiled' : ∀ e ∈ es, e.Filed := fun y hy => hfiled y (List.mem_cons_of_mem _ hy)
      rw [List.flatMap_cons, List.filter_append, hown (hfiled x List.mem_cons_self)]
      rcases List.mem_cons.mp he with rfl | he
      · have hrest : (es.flatMap Entry.sources).filter (·.name == e.name) = [] := by
          refine List.filter_eq_nil_iff.mpr fun p hp => ?_
          obtain ⟨y, hy, hp⟩ := List.mem_flatMap.mp hp
          simpa [(hfiled' y hy).name_of_mem_sources hp] using
            (Text.ne_of_rank_lt (hx y hy)).symm
        rw [if_pos rfl, hrest, List.append_nil]
      · rw [if_neg (Text.ne_of_rank_lt (hx e he)), ih hes hfiled' he, List.nil_append]

theorem names_sourcesOf (hr : r.Orderly) :
    SourceFile.names (r.sourcesOf g) = (r.entries.filter (Entry.waitsIn g)).map Entry.name := by
  have hnames := SourceFile.names_increasing (r.sourcesOf g)
  have hentries : ((r.entries.filter (Entry.waitsIn g)).map Entry.name).Pairwise
      fun m n => Text.rank m < Text.rank n :=
    List.pairwise_map.mpr (hr.increasing.sublist List.filter_sublist)
  refine List.Perm.eq_of_pairwise (fun _ _ _ _ h h' => absurd h h'.asymm) hnames hentries ?_
  rw [List.perm_ext_iff_of_nodup (hnames.imp Text.ne_of_rank_lt)
    (hentries.imp Text.ne_of_rank_lt)]
  intro n
  rw [SourceFile.mem_names, List.mem_map]
  unfold sourcesOf
  constructor
  · rintro ⟨p, hp, rfl⟩
    obtain ⟨e, he, hp⟩ := List.mem_flatMap.mp hp
    have hfiled := hr.filed e (List.mem_of_mem_filter he)
    exact ⟨e, he, (hfiled.name_of_mem_sources hp).symm⟩
  · rintro ⟨e, he, rfl⟩
    obtain ⟨hmem, hw⟩ := List.mem_filter.mp he
    have hparts : e.parts ≠ [] := by
      intro h
      simp [Entry.waitsIn, h] at hw
    obtain ⟨p, hp⟩ := List.exists_mem_of_ne_nil e.parts hparts
    have hsource : p ∈ e.sources := by
      unfold Entry.sources
      rw [if_neg (by simpa using hparts)]
      exact List.mem_append_right _ hp
    exact ⟨p, List.mem_flatMap.mpr ⟨e, he, hsource⟩,
      (hr.filed e hmem).name_of_mem_sources hsource⟩

/-- A group is merged in place as its source file is, whose modules the registry takes. -/
theorem mergeGroup_eq_takeFrom (hr : r.Orderly) :
    r.mergeGroup g = (SourceFile.merge g (r.sourcesOf g)).map r.takeFrom := by
  have hwaiting : ∀ e ∈ r.entries.filter (Entry.waitsIn g),
      (SourceFile.mergeNamed (r.sourcesOf g) ∘ Entry.name) e = Module.merge e.sources := by
    intro e he
    unfold sourcesOf
    show Module.merge (List.filter _ _) = _
    rw [filter_flatMap_sources (hr.increasing.sublist List.filter_sublist)
      (fun x hx => hr.filed x (List.mem_of_mem_filter hx)) he]
  have hmerge : SourceFile.merge g (r.sourcesOf g) =
      ((r.entries.filter (Entry.waitsIn g)).mapM fun e => Module.merge e.sources).map
        fun ms => { name := g, modules := ms } := by
    show ((SourceFile.names _).mapM (SourceFile.mergeNamed (r.sourcesOf g))).map _ = _
    rw [names_sourcesOf hr, List.mapM_map, mapM_congr_left hwaiting]
  unfold mergeGroup
  rw [hmerge, mapM_mergeIn hr.increasing hr.filed]
  cases (r.entries.filter (Entry.waitsIn g)).mapM fun e => Module.merge e.sources <;> rfl

/-- An order in which the names of each group are visited. -/
structure MapOrder where
  visit : String → List Ident → List Ident
  perm : ∀ g names, (visit g names).Perm names

variable {o : MapOrder}

/-- Merges a group by way of a source file, visiting its names in the given order. -/
def mergeGroupVisiting (o : MapOrder) (r : Registry) (g : String) : Except Failure Registry :=
  let parts := r.sourcesOf g
  (SourceFile.mergeVisiting (o.visit g (SourceFile.names parts)) g parts).map r.takeFrom

/-- Merges everything that waits, visiting the names of each group in the given order. -/
def mergeAllVisiting (o : MapOrder) (r : Registry) : Except Failure Registry :=
  r.waitingGroups.foldlM (mergeGroupVisiting o) r

theorem mergeGroupVisiting_eq_ok_iff (hr : r.Orderly) :
    mergeGroupVisiting o r g = .ok r' ↔ r.mergeGroup g = .ok r' := by
  have houtcome := SourceFile.mergeVisiting_outcome g (o.perm g (SourceFile.names (r.sourcesOf g)))
  rw [toOption_eq_iff] at houtcome
  rw [mergeGroup_eq_takeFrom hr]
  unfold mergeGroupVisiting
  simp only [map_eq_ok_iff, houtcome]

/-- The order in which names are visited does not matter. -/
theorem mergeAllVisiting_eq_ok_iff (hr : r.Orderly) :
    mergeAllVisiting o r = .ok r' ↔ r.mergeAll = (r', .ok ()) := by
  unfold mergeAll mergeAllVisiting
  rw [mergeGroups_eq_ok_iff]
  induction r.waitingGroups generalizing r with
  | nil => exact Iff.rfl
  | cons g gs ih =>
      rw [List.foldlM_cons, List.foldlM_cons, bind_eq_ok_iff, bind_eq_ok_iff]
      refine exists_congr fun r₁ => ?_
      rw [mergeGroupVisiting_eq_ok_iff hr]
      refine and_congr_right fun h => ?_
      exact ih (hr.mergeGroup h)

end Registry
end ClientLoom
