import Mathlib.Data.List.Basic
import ClientLoom.Proofs.Ty.Lexical
import ClientLoom.Ty.Parser

/-! # The grammar of types

`Ty.Derives` is the grammar of the supported type forms over whole lists of tokens:

* a type is `&` with an optional `mut` and a type, types in round brackets, one type in square
  brackets, or a path;
* a path is names joined by `::`, with types in angle brackets behind it or not;
* types in brackets are separated by commas, and one more comma may stand at the end.

The reader accepts exactly the lists that the grammar derives (`ofTokens?_eq_some_iff`), so a list
derives at most one type (`Derives.unique`), and the brackets of a list that derives a type nest
(`Derives.nests`). -/

namespace ClientLoom.Ty

open Token (isName isReserved)

/-- The word that marks a reference as mutable. -/
def mutMark : Token := .word ['m', 'u', 't']

/-- The tokens of further segments of a path. -/
def scopeTokens (ws : List (List Char)) : List Token := ws.flatMap fun w => [.scope, .word w]

/-- The tokens between an opening and a closing bracket. -/
def enclose (b : Bracket) (ts : List Token) : List Token :=
  .bracket (.opening b) :: (ts ++ [.bracket (.closing b)])

/-- The words of the segments of a path. -/
structure PathWords (w : List Char) (ws : List (List Char)) : Prop where
  first : isName w = true
  notReserved : isReserved w = false
  rest : ∀ v ∈ ws, isName v = true

/-- The path with the segments that words spell. -/
def pathOfWords (w : List Char) (ws : List (List Char)) : Path :=
  ⟨String.ofList w :: ws.map String.ofList⟩

mutual

/-- A list of tokens derives a type. -/
inductive Derives : List Token → Ty → Prop where
  /-- `mut` behind `&` is never the first segment of a path -/
  | ref {ts : List Token} {t : Ty} :
      Derives ts t → ts.head? ≠ some mutMark → Derives (.amp :: ts) (.ref false t)
  | refMut {ts : List Token} {t : Ty} : Derives ts t → Derives (.amp :: mutMark :: ts) (.ref true t)
  | tuple {ts : List Token} {elems : List Ty} :
      DerivesItems ts elems → Derives (enclose .round ts) (.tuple elems)
  | slice {ts : List Token} {t : Ty} : Derives ts t → Derives (enclose .square ts) (.slice t)
  | path {w : List Char} {ws : List (List Char)} :
      PathWords w ws → Derives (.word w :: scopeTokens ws) (.path (pathOfWords w ws) [])
  /-- nothing that may stand behind a type starts with `::` -/
  | generic {w : List Char} {ws : List (List Char)} {ts : List Token} {args : List Ty} :
      PathWords w ws → DerivesItems ts args →
        Derives (.word w :: (scopeTokens ws ++ enclose .angle ts)) (.path (pathOfWords w ws) args)

/-- A list of tokens derives types separated by commas; a comma may stand behind the last. -/
inductive DerivesItems : List Token → List Ty → Prop where
  | nil : DerivesItems [] []
  | last {ts : List Token} {t : Ty} : Derives ts t → DerivesItems ts [t]
  | more {ts us : List Token} {t : Ty} {elems : List Ty} :
      Derives ts t → DerivesItems us elems → DerivesItems (ts ++ .comma :: us) (t :: elems)

end

/-! ### Brackets -/

theorem filterMap_bracket?_scopeTokens (ws : List (List Char)) :
    (scopeTokens ws).filterMap Token.bracket? = [] := by
  induction ws with
  | nil => rfl
  | cons w ws ih => exact ih

theorem length_enclose (b : Bracket) (ts : List Token) :
    (enclose b ts).length = ts.length + 2 := by
  simp [enclose]

theorem enclose_append (b : Bracket) (ts rest : List Token) :
    enclose b ts ++ rest = .bracket (.opening b) :: (ts ++ .bracket (.closing b) :: rest) := by
  simp [enclose]

theorem filterMap_bracket?_enclose (b : Bracket) (ts : List Token) :
    (enclose b ts).filterMap Token.bracket? =
      .opening b :: (ts.filterMap Token.bracket? ++ [.closing b]) := by
  simp [enclose, Token.bracket?]

/-- Brackets that nest do not show in what is read behind them. -/
def Nests (ts : List Token) : Prop :=
  ∀ stack more, Bracket.nests stack (ts.filterMap Token.bracket? ++ more) =
    Bracket.nests stack more

theorem Nests.enclose {ts : List Token} (h : Nests ts) (b : Bracket) : Nests (enclose b ts) := by
  intro stack more
  rw [filterMap_bracket?_enclose, List.cons_append, List.append_assoc, Bracket.nests, h]
  simp [Bracket.nests]

theorem Nests.append {ts us : List Token} (ht : Nests ts) (hu : Nests us) : Nests (ts ++ us) := by
  intro stack more
  rw [List.filterMap_append, List.append_assoc, ht, hu]

theorem Nests.cons {t : Token} {ts : List Token} (ht : t.bracket? = none) (h : Nests ts) :
    Nests (t :: ts) := by
  intro stack more
  rw [List.filterMap_cons_none ht, h]

theorem nests_scopeTokens (ws : List (List Char)) : Nests (scopeTokens ws) := by
  intro stack more
  rw [filterMap_bracket?_scopeTokens]
  rfl

mutual

/-- The brackets in a list that derives a type nest. -/
theorem Derives.nests {ts : List Token} {t : Ty} : Derives ts t → Nests ts
  | .ref h _ => h.nests.cons rfl
  | .refMut h => (h.nests.cons rfl).cons rfl
  | .tuple h => h.nests.enclose .round
  | .slice h => h.nests.enclose .square
  | .path _ => (nests_scopeTokens _).cons rfl
  | .generic _ h => ((nests_scopeTokens _).append (h.nests.enclose .angle)).cons rfl

theorem DerivesItems.nests {ts : List Token} {elems : List Ty} : DerivesItems ts elems → Nests ts
  | .nil => fun _ _ => rfl
  | .last h => h.nests
  | .more h hs => h.nests.append (hs.nests.cons rfl)

end

/-! ### What a derivation starts with -/

/-- A token that no type starts with. -/
def Closes (t : Token) : Prop := t = .comma ∨ t = .scope ∨ ∃ b, t = .bracket (.closing b)

theorem Derives.exists_head {ts : List Token} {t : Ty} (h : Derives ts t) :
    ∃ k us, ts = k :: us ∧ ¬ Closes k := by
  cases h with
  | ref _ _ => exact ⟨_, _, rfl, by simp [Closes]⟩
  | refMut _ => exact ⟨_, _, rfl, by simp [Closes]⟩
  | tuple _ => exact ⟨_, _, rfl, by simp [Closes]⟩
  | slice _ => exact ⟨_, _, rfl, by simp [Closes]⟩
  | path _ => exact ⟨_, _, rfl, by simp [Closes]⟩
  | generic _ _ => exact ⟨_, _, rfl, by simp [Closes]⟩

theorem Derives.length_pos {ts : List Token} {t : Ty} (h : Derives ts t) : 0 < ts.length := by
  obtain ⟨k, us, rfl, -⟩ := h.exists_head
  exact Nat.succ_pos _

/-- No closing bracket stands where a type starts. -/
theorem Derives.head?_append_ne {ts : List Token} {t : Ty} (h : Derives ts t) (b : Bracket)
    (rest : List Token) : (ts ++ rest).head? ≠ some (.bracket (.closing b)) := by
  obtain ⟨k, us, rfl, hk⟩ := h.exists_head
  intro heq
  exact hk (.inr (.inr ⟨b, Option.some.inj heq⟩))

/-! ### Segments -/

@[simp] theorem scopeTokens_nil : scopeTokens [] = [] := rfl

@[simp] theorem scopeTokens_cons (w : List Char) (ws : List (List Char)) :
    scopeTokens (w :: ws) = .scope :: .word w :: scopeTokens ws := rfl

/-- The reader of segments takes all there are. -/
theorem scopeTail?_scopeTokens {ws : List (List Char)} (hws : ∀ v ∈ ws, isName v = true)
    (rest : List Token) (hrest : rest.head? ≠ some .scope) :
    scopeTail? (scopeTokens ws ++ rest) = some (ws.map String.ofList, rest) := by
  induction ws with
  | nil =>
      cases rest with
      | nil => rfl
      | cons k rest =>
          have hk : k ≠ .scope := fun h => hrest (congrArg some h)
          cases k with
          | scope => exact absurd rfl hk
          | _ => rfl
  | cons w ws ih =>
      have hw : isName w = true := hws w List.mem_cons_self
      have hmore := ih fun v hv => hws v (List.mem_cons_of_mem _ hv)
      simp [scopeTail?, hw, hmore]

theorem eq_scopeTokens_of_scopeTail? {ts rest : List Token} {segs : List Ident}
    (h : scopeTail? ts = some (segs, rest)) :
    ∃ ws, (∀ v ∈ ws, isName v = true) ∧ segs = ws.map String.ofList ∧
      ts = scopeTokens ws ++ rest := by
  fun_induction scopeTail? ts generalizing segs rest with
  | case1 w ts hw ih =>
      obtain ⟨⟨segs', rest'⟩, htail, heq⟩ := Option.map_eq_some_iff.mp h
      obtain ⟨rfl, rfl⟩ := Prod.mk.inj heq
      obtain ⟨ws, hws, hsegs, rfl⟩ := ih htail
      exact ⟨w :: ws, List.forall_mem_cons.mpr ⟨hw, hws⟩, by simp [← hsegs], rfl⟩
  | case2 => cases h
  | case3 => cases h
  | case4 ts _ =>
      obtain ⟨rfl, rfl⟩ := Prod.mk.inj (Option.some.inj h)
      exact ⟨[], by simp, rfl, rfl⟩

/-! ### The reader keeps to the grammar -/

mutual

theorem derives_of_read? : ∀ {fuel : Nat} {ts rest : List Token} {t : Ty},
    read? fuel ts = some (t, rest) → ∃ us, ts = us ++ rest ∧ Derives us t
  | 0, _, _, _, h => nomatch h
  | fuel + 1, ts, rest, t, h => by
      unfold read? at h
      split at h
      · -- a mutable reference
        obtain ⟨⟨elem, rest'⟩, hread, heq⟩ := Option.map_eq_some_iff.mp h
        obtain ⟨rfl, rfl⟩ := Prod.mk.inj heq
        obtain ⟨us, rfl, hus⟩ := derives_of_read? hread
        exact ⟨_, rfl, .refMut hus⟩
      · next ts hmut =>
        obtain ⟨⟨elem, rest'⟩, hread, heq⟩ := Option.map_eq_some_iff.mp h
        obtain ⟨rfl, rfl⟩ := Prod.mk.inj heq
        obtain ⟨us, rfl, hus⟩ := derives_of_read? hread
        refine ⟨_, rfl, .ref hus fun hhead => ?_⟩
        obtain ⟨k, vs, rfl, -⟩ := hus.exists_head
        obtain rfl := Option.some.inj hhead
        exact hmut _ rfl
      · obtain ⟨⟨elems, rest'⟩, hread, heq⟩ := Option.map_eq_some_iff.mp h
        obtain ⟨rfl, rfl⟩ := Prod.mk.inj heq
        obtain ⟨us, rfl, hus⟩ := derivesItems_of_readItems? hread
        exact ⟨_, (enclose_append ..).symm, .tuple hus⟩
      · split at h
        · next hread =>
          obtain ⟨rfl, rfl⟩ := Prod.mk.inj (Option.some.inj h)
          obtain ⟨us, rfl, hus⟩ := derives_of_read? hread
          exact ⟨_, (enclose_append ..).symm, .slice hus⟩
        · cases h
      · next w ts =>
        split at h
        · next hword =>
          rw [Bool.and_eq_true, Bool.not_eq_true'] at hword
          split at h
          · -- a path with a list in angle brackets
            next segs ts' htail =>
            obtain ⟨ws, hws, rfl, rfl⟩ := eq_scopeTokens_of_scopeTail? htail
            split at h
            · cases h
            · next hread =>
              obtain ⟨rfl, rfl⟩ := Prod.mk.inj (Option.some.inj h)
              obtain ⟨us, rfl, hus⟩ := derivesItems_of_readItems? hread
              exact ⟨_, by simp [enclose_append], .generic ⟨hword.1, hword.2, hws⟩ hus⟩
            · cases h
          · next htail =>
            obtain ⟨rfl, rfl⟩ := Prod.mk.inj (Option.some.inj h)
            obtain ⟨ws, hws, rfl, rfl⟩ := eq_scopeTokens_of_scopeTail? htail
            exact ⟨_, rfl, .path ⟨hword.1, hword.2, hws⟩⟩
          · cases h
        · cases h
      · cases h

theorem derivesItems_of_readItems? : ∀ {fuel : Nat} {b : Bracket} {ts rest : List Token}
    {elems : List Ty}, readItems? fuel b ts = some (elems, rest) →
      ∃ us, ts = us ++ .bracket (.closing b) :: rest ∧ DerivesItems us elems
  | 0, _, _, _, _, h => nomatch h
  | fuel + 1, b, ts, rest, elems, h => by
      unfold readItems? at h
      split at h
      · next hclose =>
        obtain ⟨rfl, rfl⟩ := Prod.mk.inj (Option.some.inj h)
        exact ⟨[], List.eq_cons_of_mem_head? hclose, .nil⟩
      · split at h
        · next hread =>
          obtain ⟨⟨elems', rest'⟩, hmore, heq⟩ := Option.map_eq_some_iff.mp h
          obtain ⟨rfl, rfl⟩ := Prod.mk.inj heq
          obtain ⟨us, rfl, hus⟩ := derives_of_read? hread
          obtain ⟨vs, rfl, hvs⟩ := derivesItems_of_readItems? hmore
          exact ⟨_, by simp, .more hus hvs⟩
        · next hread =>
          split at h
          · next hclose =>
            obtain ⟨rfl, rfl⟩ := Prod.mk.inj (Option.some.inj h)
            obtain ⟨us, rfl, hus⟩ := derives_of_read? hread
            exact ⟨us, congrArg (us ++ ·) (List.eq_cons_of_mem_head? hclose), .last hus⟩
          · cases h
        · cases h

end

/-! ### The reader takes what the grammar derives -/

/-- What may stand behind a type: nothing that goes on with a path. -/
def MayFollow (rest : List Token) : Prop :=
  rest.head? ≠ some .scope ∧ rest.head? ≠ some (.bracket (.opening .angle))

section paths

variable {fuel : Nat} {w : List Char} {segs : List Ident} {ts us rest : List Token}

theorem read?_path (hname : isName w = true) (hfree : isReserved w = false)
    (htail : scopeTail? ts = some (segs, rest))
    (hrest : rest.head? ≠ some (.bracket (.opening .angle))) :
    read? (fuel + 1) (.word w :: ts) = some (.path ⟨String.ofList w :: segs⟩ [], rest) := by
  rw [read?, hname, hfree, htail]
  simp only [Bool.not_false, Bool.and_true, if_true]
  split
  · next heq =>
    obtain ⟨-, rfl⟩ := Prod.mk.inj (Option.some.inj heq)
    exact absurd rfl hrest
  · next heq =>
    obtain ⟨rfl, rfl⟩ := Prod.mk.inj (Option.some.inj heq)
    rfl
  · next heq => cases heq

theorem read?_generic {args : List Ty} (hname : isName w = true) (hfree : isReserved w = false)
    (htail : scopeTail? ts = some (segs, .bracket (.opening .angle) :: us))
    (hargs : readItems? fuel .angle us = some (args, rest)) (hrest : rest.head? ≠ some .scope) :
    read? (fuel + 1) (.word w :: ts) = some (.path ⟨String.ofList w :: segs⟩ args, rest) := by
  rw [read?, hname, hfree, htail]
  simp only [Bool.not_false, Bool.and_true, if_true, hargs]
  split
  · next heq =>
    obtain ⟨-, rfl⟩ := Prod.mk.inj (Option.some.inj heq)
    exact absurd rfl hrest
  · next heq =>
    obtain ⟨rfl, rfl⟩ := Prod.mk.inj (Option.some.inj heq)
    rfl
  · next heq => cases heq

end paths

mutual

/-- Two rounds for each token are enough. -/
theorem Derives.read?_eq {ts : List Token} {t : Ty} : Derives ts t →
    ∀ (fuel : Nat) (rest : List Token), 2 * ts.length ≤ fuel → MayFollow rest →
      read? fuel (ts ++ rest) = some (t, rest)
  | @Derives.ref ts t h hmut, fuel, rest, hfuel, hrest => by
      rw [List.length_cons] at hfuel
      obtain ⟨fuel, rfl⟩ : ∃ n, fuel = n + 1 := ⟨fuel - 1, by omega⟩
      have hread := h.read?_eq fuel rest (by omega) hrest
      obtain ⟨k, us, rfl, -⟩ := h.exists_head
      rw [List.cons_append, read?]
      · rw [hread]
        rfl
      · rintro us' heq
        exact hmut (congrArg some (List.cons.inj heq).1)
  | @Derives.refMut ts t h, fuel, rest, hfuel, hrest => by
      rw [List.length_cons, List.length_cons] at hfuel
      obtain ⟨fuel, rfl⟩ : ∃ n, fuel = n + 1 := ⟨fuel - 1, by omega⟩
      have hread := h.read?_eq fuel rest (by omega) hrest
      rw [List.cons_append, List.cons_append, mutMark, read?, hread]
      rfl
  | @Derives.tuple ts elems h, fuel, rest, hfuel, hrest => by
      rw [length_enclose] at hfuel
      obtain ⟨fuel, rfl⟩ : ∃ n, fuel = n + 1 := ⟨fuel - 1, by omega⟩
      have hread := h.readItems?_eq fuel .round rest (by omega)
      rw [enclose_append, read?, hread]
      rfl
  | @Derives.slice ts t h, fuel, rest, hfuel, hrest => by
      rw [length_enclose] at hfuel
      obtain ⟨fuel, rfl⟩ : ∃ n, fuel = n + 1 := ⟨fuel - 1, by omega⟩
      have hread := h.read?_eq fuel (.bracket (.closing .square) :: rest) (by omega)
        (by simp [MayFollow])
      rw [enclose_append, read?, hread]
  | @Derives.path w ws hw, fuel, rest, hfuel, hrest => by
      rw [List.length_cons] at hfuel
      obtain ⟨fuel, rfl⟩ : ∃ n, fuel = n + 1 := ⟨fuel - 1, by omega⟩
      have htail := scopeTail?_scopeTokens hw.rest rest hrest.1
      exact read?_path hw.first hw.notReserved htail hrest.2
  | @Derives.generic w ws ts args hw h, fuel, rest, hfuel, hrest => by
      rw [List.length_cons, List.length_append, length_enclose] at hfuel
      obtain ⟨fuel, rfl⟩ : ∃ n, fuel = n + 1 := ⟨fuel - 1, by omega⟩
      have hread := h.readItems?_eq fuel .angle rest (by omega)
      have htail := scopeTail?_scopeTokens hw.rest (enclose .angle ts ++ rest)
        (by simp [enclose_append])
      rw [List.cons_append, List.append_assoc]
      rw [enclose_append] at htail ⊢
      exact read?_generic hw.first hw.notReserved htail hread hrest.1

theorem DerivesItems.readItems?_eq {ts : List Token} {elems : List Ty} : DerivesItems ts elems →
    ∀ (fuel : Nat) (b : Bracket) (rest : List Token), 2 * ts.length + 1 ≤ fuel →
      readItems? fuel b (ts ++ .bracket (.closing b) :: rest) = some (elems, rest)
  | .nil, fuel, b, rest, hfuel => by
      obtain ⟨fuel, rfl⟩ : ∃ n, fuel = n + 1 := ⟨fuel - 1, by omega⟩
      rw [readItems?, List.nil_append, if_pos (by rfl)]
      rfl
  | @DerivesItems.last ts t h, fuel, b, rest, hfuel => by
      obtain ⟨fuel, rfl⟩ : ∃ n, fuel = n + 1 := ⟨fuel - 1, by omega⟩
      have hread := h.read?_eq fuel (.bracket (.closing b) :: rest) (by omega)
        (by simp [MayFollow])
      rw [readItems?, if_neg (h.head?_append_ne b _), hread]
      exact if_pos rfl
  | @DerivesItems.more ts us t elems h hs, fuel, b, rest, hfuel => by
      rw [List.length_append, List.length_cons] at hfuel
      obtain ⟨fuel, rfl⟩ : ∃ n, fuel = n + 1 := ⟨fuel - 1, by omega⟩
      have hread := h.read?_eq fuel (.comma :: (us ++ .bracket (.closing b) :: rest)) (by omega)
        (by simp [MayFollow])
      have hmore := hs.readItems?_eq fuel b rest (by omega)
      rw [List.append_assoc, List.cons_append, readItems?, if_neg (h.head?_append_ne b _),
        hread]
      simp only [hmore, Option.map_some]

end

/-! ### The reader and the grammar -/

/-- The reader gives the type that the grammar derives. -/
theorem ofTokens?_eq_some_iff {ts : List Token} {t : Ty} :
    ofTokens? ts = some t ↔ Derives ts t := by
  unfold ofTokens?
  constructor
  · intro h
    split at h
    · next hread =>
      obtain rfl := Option.some.inj h
      obtain ⟨us, rfl, hus⟩ := derives_of_read? hread
      rwa [List.append_nil]
    · cases h
  · intro h
    have hread := h.read?_eq (2 * ts.length + 2) [] (by omega) (by simp [MayFollow])
    rw [List.append_nil] at hread
    rw [hread]

/-- Tokens derive one type at most. -/
theorem Derives.unique {ts : List Token} {t u : Ty} (ht : Derives ts t) (hu : Derives ts u) :
    t = u :=
  Option.some.inj ((ofTokens?_eq_some_iff.mpr ht).symm.trans (ofTokens?_eq_some_iff.mpr hu))

end ClientLoom.Ty
