import Mathlib.Data.Set.Basic

/-!
# Secondary indexes

Rows of a table hold entries with keys, and an index finds a row for each key. Some rows were given
keys; the index is sound when it finds, for each key that such a row holds, a row that was given the
key, holds it and can be read.

## Main definitions

* `SecondaryIndex`: a table, the keys that rows were given, and an index.
* `SecondaryIndex.Holds`, `SecondaryIndex.Finds`, `SecondaryIndex.Sound`.

## Main results

* `SecondaryIndex.Sound.of_writes`: the rule for writing a set of rows.
-/

/-- A table whose rows were given keys, and an index from keys to rows. -/
structure SecondaryIndex (G K E : Type*) where
  table : G → Option E
  given : Set (G × K)
  index : K → G

namespace SecondaryIndex

variable {G K E : Type*} {key : E → K} {readable : E → Prop} {s s' : SecondaryIndex G K E}

/-- The row was given the key and still holds it. -/
def Holds (key : E → K) (s : SecondaryIndex G K E) (g : G) (k : K) : Prop :=
  (g, k) ∈ s.given ∧ ∃ e, s.table g = some e ∧ key e = k

/-- The index finds a row that holds the key and can be read. -/
def Finds (key : E → K) (readable : E → Prop) (s : SecondaryIndex G K E) (k : K) : Prop :=
  (s.index k, k) ∈ s.given ∧ ∃ e, s.table (s.index k) = some e ∧ key e = k ∧ readable e

/-- The index finds every key that a row holds. -/
def Sound (key : E → K) (readable : E → Prop) (s : SecondaryIndex G K E) : Prop :=
  ∀ g k, Holds key s g k → Finds key readable s k

/-- Writing the rows of a set keeps an index sound if it finds the keys of the rows written, and for
the keys of other rows it finds them or does not change and does not use a row written. -/
theorem Sound.of_writes (hs : Sound key readable s) (W : Set G)
    (htable : ∀ g ∉ W, ∀ k, (g, k) ∈ s.given → s'.table g = s.table g)
    (hgiven : ∀ g ∉ W, ∀ k, (g, k) ∈ s'.given → (g, k) ∈ s.given) (hsub : s.given ⊆ s'.given)
    (hnew : ∀ g ∈ W, ∀ k, Holds key s' g k → Finds key readable s' k)
    (hold : ∀ g ∉ W, ∀ k, Holds key s g k → Finds key readable s' k ∨
      s'.index k = s.index k ∧ s.index k ∉ W) : Sound key readable s' := by
  intro g k hk
  by_cases hg : g ∈ W
  · exact hnew g hg k hk
  · obtain ⟨hmem, e, he, hke⟩ := hk
    have hmem' := hgiven g hg k hmem
    have hholds : Holds key s g k := ⟨hmem', e, htable g hg k hmem' ▸ he, hke⟩
    rcases hold g hg k hholds with hfinds | ⟨hindex, hout⟩
    · exact hfinds
    · obtain ⟨hin, e', he', hread⟩ := hs g k hholds
      refine ⟨hindex ▸ hsub hin, e', ?_, hread⟩
      rw [hindex, htable _ hout k hin, he']

end SecondaryIndex
