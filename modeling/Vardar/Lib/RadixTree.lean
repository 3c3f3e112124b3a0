import Mathlib.Data.List.Induction
import Mathlib.Data.Set.Insert
import Mathlib.Tactic.Tauto

/-!
# Trees of tables

A store gives each table a word at each index, and some words point to a child table. A path of
indices from a root leads through child tables; the word at a path and an index is the word of the
table it leads to, or blank where it leads nowhere. If different paths of bounded length lead to
different tables, then writing a word below the last tables, or linking a blank new table where
nothing was linked, changes the word at one place and nowhere else.

## Main definitions

* `RadixTree.walk`, `RadixTree.word`, `RadixTree.tables`.
* `RadixTree.Separate`: a table is reached from one root along one path.

## Main results

* `RadixTree.word_of_leaf`, `RadixTree.Separate.leaf`: a write to a table at full depth.
* `RadixTree.word_of_graft`, `RadixTree.Separate.graft`: linking a new blank table.
-/

namespace RadixTree

variable {T I W : Type*}

/-- The table a path leads to. -/
def walk (child : W → Option T) (σ : T → I → W) (t : T) : List I → Option T
  | [] => some t
  | i :: p => (child (σ t i)).bind fun t' => walk child σ t' p

/-- The word at index `i` of the table a path leads to, `blank` if there is none. -/
def word (child : W → Option T) (blank : W) (σ : T → I → W) (r : T) (p : List I) (i : I) : W :=
  ((walk child σ r p).map fun t => σ t i).getD blank

/-- The tables reached from the roots along paths of length at most `d`. -/
def tables (child : W → Option T) (σ : T → I → W) (R : Set T) (d : ℕ) : Set T :=
  {t | ∃ r ∈ R, ∃ p : List I, p.length ≤ d ∧ walk child σ r p = some t}

/-- Every table is reached from one root along one path of length at most `d`. -/
def Separate (child : W → Option T) (σ : T → I → W) (R : Set T) (d : ℕ) : Prop :=
  ∀ ⦃r⦄, r ∈ R → ∀ ⦃r'⦄, r' ∈ R → ∀ ⦃p p' : List I⦄, p.length ≤ d → p'.length ≤ d →
    ∀ ⦃t⦄, walk child σ r p = some t → walk child σ r' p' = some t → r = r' ∧ p = p'

variable {child : W → Option T} {blank : W} {σ σ' : T → I → W} {R : Set T} {d : ℕ}
variable {r r' t f : T} {p q : List I} {i j : I} {w : W}

theorem walk_append (t : T) (p q : List I) :
    walk child σ t (p ++ q) = (walk child σ t p).bind fun t' => walk child σ t' q := by
  induction p generalizing t with
  | nil => rfl
  | cons i p ih =>
    simp only [List.cons_append, walk, Option.bind_assoc]
    congr 1
    funext t'
    exact ih t'

theorem walk_concat (t : T) (p : List I) (i : I) :
    walk child σ t (p ++ [i]) = (walk child σ t p).bind fun t' => child (σ t' i) := by
  rw [walk_append]
  congr 1
  funext t'
  simp [walk]

theorem word_of_walk (h : walk child σ r p = some t) : word child blank σ r p i = σ t i := by
  rw [word, h]
  rfl

theorem word_of_walk_none (h : walk child σ r p = none) : word child blank σ r p i = blank := by
  rw [word, h]
  rfl

/-- The walk goes on through the word at its end. -/
theorem walk_concat_eq_child (hb : child blank = none) :
    walk child σ r (p ++ [i]) = child (word child blank σ r p i) := by
  rw [walk_concat]
  cases hw : walk child σ r p with
  | none => rw [word_of_walk_none hw, hb]; rfl
  | some t => rw [word_of_walk hw]; rfl

/-- Every proper part of a path that leads somewhere ends in a word with a child. -/
theorem child_word_of_walk (hb : child blank = none)
    (h : walk child σ r (p ++ i :: q) = some t) : child (word child blank σ r p i) ≠ none := by
  intro hnone
  rw [← List.singleton_append, ← List.append_assoc, walk_append, walk_concat_eq_child hb,
    hnone] at h
  simp at h

theorem mem_tables (hr : r ∈ R) (hp : p.length ≤ d) (h : walk child σ r p = some t) :
    t ∈ tables child σ R d :=
  ⟨r, hr, p, hp, h⟩

theorem root_mem_tables (hr : r ∈ R) : r ∈ tables child σ R d :=
  mem_tables hr (Nat.zero_le d) (p := []) rfl

/-! ### Stores that agree on the tables -/

theorem walk_congr (h : ∀ t ∈ tables child σ R d, ∀ i, σ' t i = σ t i) (hr : r ∈ R)
    (hp : p.length ≤ d + 1) : walk child σ' r p = walk child σ r p := by
  induction p using List.reverseRecOn with
  | nil => rfl
  | append_singleton p i ih =>
    rw [List.length_append, List.length_singleton] at hp
    rw [walk_concat, walk_concat, ih (by omega)]
    cases hw : walk child σ r p with
    | none => rfl
    | some t =>
      simp only [Option.bind_some]
      rw [h t (mem_tables hr (by omega) hw)]

theorem word_congr (h : ∀ t ∈ tables child σ R d, ∀ i, σ' t i = σ t i) (hr : r ∈ R)
    (hp : p.length ≤ d) : word child blank σ' r p i = word child blank σ r p i := by
  rw [word, word, walk_congr h hr (by omega)]
  cases hw : walk child σ r p with
  | none => rfl
  | some t => exact h t (mem_tables hr hp hw) i

theorem tables_congr (h : ∀ t ∈ tables child σ R d, ∀ i, σ' t i = σ t i) :
    tables child σ' R d = tables child σ R d := by
  ext t
  constructor
  · rintro ⟨r, hr, p, hp, hw⟩
    exact ⟨r, hr, p, hp, by rwa [walk_congr h hr (by omega)] at hw⟩
  · rintro ⟨r, hr, p, hp, hw⟩
    exact ⟨r, hr, p, hp, by rwa [walk_congr h hr (by omega)]⟩

theorem Separate.congr (hs : Separate child σ R d)
    (h : ∀ t ∈ tables child σ R d, ∀ i, σ' t i = σ t i) : Separate child σ' R d := by
  intro r hr r' hr' p p' hp hp' t hw hw'
  rw [walk_congr h hr (by omega)] at hw
  rw [walk_congr h hr' (by omega)] at hw'
  exact hs hr hr' hp hp' hw hw'

/-- Where a write leaves the walks alone, it changes the word at its own place only. -/
theorem word_write [DecidableEq T] [DecidableEq I] (hs : Separate child σ R d) (hr : r ∈ R)
    (hq : q.length ≤ d) (hw : walk child σ r q = some t)
    (hσ : ∀ t' ∈ tables child σ R d, ∀ j, (t' ≠ t ∨ j ≠ i) → σ' t' j = σ t' j) (hr' : r' ∈ R)
    (hp : p.length ≤ d) (hwalk : walk child σ' r' p = walk child σ r' p) (j : I)
    (hwrite : σ' t i = w) : word child blank σ' r' p j =
      if r' = r ∧ p = q ∧ j = i then w else word child blank σ r' p j := by
  rw [word, hwalk]
  cases hp' : walk child σ r' p with
  | none =>
    rw [if_neg, word_of_walk_none hp']
    · rfl
    · rintro ⟨rfl, rfl, -⟩
      rw [hw] at hp'
      exact absurd hp' (by simp)
  | some t' =>
    simp only [Option.map_some, Option.getD_some]
    split_ifs with heq
    · obtain ⟨rfl, rfl, rfl⟩ := heq
      rw [hw, Option.some.injEq] at hp'
      rw [← hp', hwrite]
    · rw [word_of_walk hp']
      refine hσ t' (mem_tables hr' hp hp') j ?_
      by_contra hno
      simp only [not_or, not_not] at hno
      obtain ⟨rfl, rfl⟩ := hno
      have hpq := hs hr hr' hq hp hw hp'
      exact heq ⟨hpq.1.symm, hpq.2.symm, rfl⟩

/-! ### Writing below the last tables -/

section Leaf

variable (hs : Separate child σ R d) (hr : r ∈ R) (hq : q.length = d)
  (hw : walk child σ r q = some t)
  (hσ : ∀ t' ∈ tables child σ R d, ∀ j, (t' ≠ t ∨ j ≠ i) → σ' t' j = σ t' j)

include hs hr hq hw hσ

theorem walk_of_leaf (hr' : r' ∈ R) (hp : p.length ≤ d) :
    walk child σ' r' p = walk child σ r' p := by
  induction p using List.reverseRecOn with
  | nil => rfl
  | append_singleton p j ih =>
    rw [List.length_append, List.length_singleton] at hp
    rw [walk_concat, walk_concat, ih (by omega)]
    cases hp' : walk child σ r' p with
    | none => rfl
    | some t' =>
      have hne : t' ≠ t := by
        rintro rfl
        have hpq := (hs hr hr' (by omega) (by omega) hw hp').2
        rw [← hpq] at hp
        omega
      simp only [Option.bind_some]
      rw [hσ t' (mem_tables hr' (by omega) hp') j (.inl hne)]

theorem word_of_leaf [DecidableEq T] [DecidableEq I] (hr' : r' ∈ R) (hp : p.length ≤ d) (j : I)
    (hwrite : σ' t i = w) : word child blank σ' r' p j =
      if r' = r ∧ p = q ∧ j = i then w else word child blank σ r' p j := by
  exact word_write hs hr hq.le hw hσ hr' hp (walk_of_leaf hs hr hq hw hσ hr' hp) j hwrite

theorem tables_of_leaf : tables child σ' R d = tables child σ R d := by
  ext t'
  constructor
  · rintro ⟨r', hr', p, hp, hw'⟩
    exact ⟨r', hr', p, hp, by rwa [walk_of_leaf hs hr hq hw hσ hr' hp] at hw'⟩
  · rintro ⟨r', hr', p, hp, hw'⟩
    exact ⟨r', hr', p, hp, by rwa [walk_of_leaf hs hr hq hw hσ hr' hp]⟩

theorem Separate.leaf : Separate child σ' R d := by
  intro r₁ hr₁ r₂ hr₂ p p' hp hp' t' hw₁ hw₂
  rw [walk_of_leaf hs hr hq hw hσ hr₁ hp] at hw₁
  rw [walk_of_leaf hs hr hq hw hσ hr₂ hp'] at hw₂
  exact hs hr₁ hr₂ hp hp' hw₁ hw₂

end Leaf

/-! ### Linking a new table -/

section Graft

variable (hs : Separate child σ R d) (hr : r ∈ R) (hq : q.length < d)
  (hw : walk child σ r q = some t) (hnone : child (σ t i) = none)
  (hb : child blank = none) (hblank : ∀ j, σ' f j = blank)
  (hlink : child (σ' t i) = some f)
  (hσ : ∀ t' ∈ tables child σ R d, ∀ j, (t' ≠ t ∨ j ≠ i) → σ' t' j = σ t' j)

include hs hr hq hw hnone hb hblank hlink hσ

theorem walk_of_graft [DecidableEq T] [DecidableEq I] (hr' : r' ∈ R) (hp : p.length ≤ d) :
    walk child σ' r' p = if r' = r ∧ p = q ++ [i] then some f else walk child σ r' p := by
  induction p using List.reverseRecOn with
  | nil => rw [if_neg (by simp)]; rfl
  | append_singleton p j ih =>
    rw [List.length_append, List.length_singleton] at hp
    rw [walk_concat, ih (by omega)]
    by_cases hnew : r' = r ∧ p = q ++ [i]
    -- below the new table there is nothing, and there was nothing
    · obtain ⟨rfl, rfl⟩ := hnew
      rw [if_pos ⟨rfl, rfl⟩, if_neg (by simp), walk_concat, walk_concat, hw]
      simp only [Option.bind_some, hblank, hb, hnone, Option.bind_none]
    · rw [if_neg hnew, walk_concat]
      cases hp' : walk child σ r' p with
      | none =>
        rw [if_neg]
        · rfl
        · rintro ⟨rfl, hpq⟩
          obtain ⟨rfl, -⟩ := List.append_inj' hpq rfl
          rw [hw] at hp'
          exact absurd hp' (by simp)
      | some t' =>
        simp only [Option.bind_some]
        by_cases hat : t' = t ∧ j = i
        · obtain ⟨rfl, rfl⟩ := hat
          obtain ⟨rfl, rfl⟩ := hs hr hr' (by omega) (by omega) hw hp'
          rw [if_pos ⟨rfl, rfl⟩, hlink]
        · rw [if_neg, hσ t' (mem_tables hr' (by omega) hp') j (by tauto)]
          rintro ⟨rfl, hpq⟩
          obtain ⟨rfl, hij⟩ := List.append_inj' hpq rfl
          rw [hw, Option.some.injEq] at hp'
          exact hat ⟨hp'.symm, by simpa using hij⟩

theorem word_of_graft [DecidableEq T] [DecidableEq I] (hr' : r' ∈ R) (hp : p.length ≤ d) (j : I)
    (hwrite : σ' t i = w) : word child blank σ' r' p j =
      if r' = r ∧ p = q ∧ j = i then w else word child blank σ r' p j := by
  have hwalk := walk_of_graft hs hr hq hw hnone hb hblank hlink hσ hr' hp
  by_cases hnew : r' = r ∧ p = q ++ [i]
  · rw [if_pos hnew] at hwalk
    obtain ⟨rfl, rfl⟩ := hnew
    have hold : walk child σ r' (q ++ [i]) = none := by
      rw [walk_concat, hw]
      exact hnone
    rw [word_of_walk hwalk, hblank, if_neg (by simp), word_of_walk_none hold]
  · rw [if_neg hnew] at hwalk
    exact word_write hs hr hq.le hw hσ hr' hp hwalk j hwrite

theorem tables_of_graft : tables child σ' R d ⊆ insert f (tables child σ R d) := by
  classical
  rintro t' ⟨r', hr', p, hp, hw'⟩
  rw [walk_of_graft hs hr hq hw hnone hb hblank hlink hσ hr' hp] at hw'
  split_ifs at hw' with hnew
  · exact .inl (Option.some.inj hw').symm
  · exact .inr ⟨r', hr', p, hp, hw'⟩

theorem Separate.graft (hf : f ∉ tables child σ R d) : Separate child σ' R d := by
  classical
  intro r₁ hr₁ r₂ hr₂ p p' hp hp' t' hw₁ hw₂
  rw [walk_of_graft hs hr hq hw hnone hb hblank hlink hσ hr₁ hp] at hw₁
  rw [walk_of_graft hs hr hq hw hnone hb hblank hlink hσ hr₂ hp'] at hw₂
  split_ifs at hw₁ hw₂ with h₁ h₂ h₂
  · exact ⟨h₁.1.trans h₂.1.symm, h₁.2.trans h₂.2.symm⟩
  · obtain rfl := Option.some.inj hw₁
    exact absurd (mem_tables hr₂ hp' hw₂) hf
  · obtain rfl := Option.some.inj hw₂
    exact absurd (mem_tables hr₁ hp hw₁) hf
  · exact hs hr₁ hr₂ hp hp' hw₁ hw₂

end Graft

end RadixTree
