import Mathlib.Data.Nat.Find
import Mathlib.Order.Basic
import Mathlib.Logic.Relation

/-!
# Searching a ring

A search for `k + 1` free indices in a row goes upwards from an index. At a used index it goes on
after that index, modulo `n`, and it stops at the index `last`. It looks at indices past the end of
the ring when a row of free ones reaches it, so a round that goes past the end begins the next one
at `0`, `1` or `2`.

## Main definitions

* `RingSearch.Next`: one round of the search.
* `RingSearch.Finds`, `RingSearch.Stops`: how the search ends.
* `RingSearch.reentry`: where the search begins again after the end of the ring.

## Main results

* `RingSearch.finds_of_le`, `RingSearch.stops_of_le`: the search on its way up.
* `RingSearch.finds_or_reenters`: a search that passes the end of the ring.
* `RingSearch.exists_finds_iff`, `RingSearch.exists_finds_zero_iff`, `RingSearch.stops_iff`: how a
  search that begins after `last` ends.
-/

namespace RingSearch

open Relation

variable (free : ℕ → Prop) (n last k : ℕ)

/-- The `k + 1` indices from `h` on are free. -/
def Window (h : ℕ) : Prop := ∀ j, h ≤ j → j ≤ h + k → free j

/-- `t` is the first used one of the `k + 1` indices from `h` on. -/
def Blocked (h t : ℕ) : Prop := h ≤ t ∧ t ≤ h + k ∧ ¬ free t ∧ ∀ j, h ≤ j → j < t → free j

/-- One round of the search. -/
def Next (h h' : ℕ) : Prop := h ≠ last ∧ ∃ t, Blocked free k h t ∧ h' = (t + 1) % n

/-- The search from `h` ends with the row at `g`. -/
def Finds (h g : ℕ) : Prop :=
  ReflTransGen (Next free n last k) h g ∧ g ≠ last ∧ Window free k g

/-- The search from `h` ends at `last`. -/
def Stops (h : ℕ) : Prop := ReflTransGen (Next free n last k) h last

open Classical in
/-- Where a search that passes the end of the ring from `h` begins again: after the first used one
of the indices from `n - 1` on. -/
noncomputable def reentry (h : ℕ) : ℕ :=
  if h < n ∧ ¬ free (n - 1) then 0 else if h ≤ n ∧ ¬ free n then 1 else 2

variable {free n last k} {h h' t g : ℕ}

theorem window_or_blocked (free : ℕ → Prop) (k h : ℕ) :
    Window free k h ∨ ∃ t, Blocked free k h t := by
  classical
  by_cases hex : ∃ t, h ≤ t ∧ t ≤ h + k ∧ ¬ free t
  · obtain ⟨hle, hlt, hused⟩ := Nat.find_spec hex
    refine Or.inr ⟨Nat.find hex, hle, hlt, hused, fun j hj hj' => ?_⟩
    by_contra hcon
    exact Nat.find_min hex hj' ⟨hj, by omega, hcon⟩
  · refine Or.inl fun j hj hj' => ?_
    by_contra hcon
    exact hex ⟨j, hj, hj', hcon⟩

/-- A row above the search is not passed over. -/
theorem Blocked.lt_of_window (hb : Blocked free k h t) (hw : Window free k g) (hle : h ≤ g) :
    t < g := by
  by_contra hcon
  obtain ⟨-, htk, hused, -⟩ := hb
  exact hused (hw t (by omega) (by omega))

/-- An index of the search other than its first one is in the ring. -/
theorem eq_or_lt_of_reaches (hn : 0 < n) (hr : ReflTransGen (Next free n last k) h g) :
    g = h ∨ g < n := by
  rcases ReflTransGen.cases_tail hr with rfl | ⟨h', -, -, t, -, rfl⟩
  · exact Or.inl rfl
  · exact Or.inr (Nat.mod_lt _ hn)

theorem Finds.of_reaches (hr : ReflTransGen (Next free n last k) h h')
    (hf : Finds free n last k h' g) : Finds free n last k h g :=
  ⟨hr.trans hf.1, hf.2⟩

/-- From every index of the ring the search begins again at the same one. -/
theorem reentry_of_lt (hh : h < n) : reentry free n h = reentry free n 0 := by
  classical
  simp only [reentry, hh, hh.le, Nat.zero_le, Nat.zero_lt_of_lt hh, true_and]

theorem reentry_le_two (free : ℕ → Prop) (n h : ℕ) : reentry free n h ≤ 2 := by
  rw [reentry]
  split_ifs <;> decide

/-! ### Searching upwards -/

/-- The search finds a row above it, or an earlier one, before it meets `last`. -/
theorem finds_of_le (hw : Window free k g) (hle : h ≤ g) (hg : g = h ∨ g < n)
    (hlast : ∀ i, h ≤ i → i ≤ g → i ≠ last) : ∃ g', Finds free n last k h g' := by
  induction hd : g - h using Nat.strong_induction_on generalizing h with
  | _ d ih =>
    have hne := hlast h le_rfl hle
    rcases window_or_blocked free k h with hhere | ⟨t, hb⟩
    · exact ⟨h, ReflTransGen.refl, hne, hhere⟩
    · have htg := hb.lt_of_window hw hle
      have hht := hb.1
      have hgn : g < n := by omega
      obtain ⟨g', hf⟩ := ih (g - (t + 1)) (by omega) (h := t + 1) (by omega) (Or.inr hgn)
        (fun i hi hi' => hlast i (by omega) hi') rfl
      refine ⟨g', hf.of_reaches (ReflTransGen.single ⟨hne, t, hb, ?_⟩)⟩
      rw [Nat.mod_eq_of_lt (by omega)]

/-- Without a row to find, the search stops at `last` if it begins there or comes from the used
index before it. -/
theorem stops_of_le (hno : ∀ g, ¬ Window free k g) (hle : h ≤ last) (hlt : last < n)
    (hlast : h = last ∨ ¬ free (last - 1)) : Stops free n last k h := by
  induction hd : last - h using Nat.strong_induction_on generalizing h with
  | _ d ih =>
    rcases hle.eq_or_lt with rfl | hne
    · exact ReflTransGen.refl
    · have hused : ¬ free (last - 1) := hlast.resolve_left hne.ne
      obtain ⟨t, hb⟩ := (window_or_blocked free k h).resolve_left (hno h)
      have hht := hb.1
      have htlast : t ≤ last - 1 := by
        by_contra hcon
        exact hused (hb.2.2.2 (last - 1) (by omega) (by omega))
      have hs := ih (last - (t + 1)) (by omega) (h := t + 1) (by omega) (Or.inr hused) rfl
      refine ReflTransGen.head ⟨hne.ne, t, hb, ?_⟩ hs
      rw [Nat.mod_eq_of_lt (by omega)]

/-! ### Passing the end of the ring -/

section Wrap

variable (hn : 3 ≤ n) (htop : ∀ i, free i → i ≤ n)

include hn htop

/-- A round that does not end below `n` goes on at `reentry`. -/
theorem Blocked.mod_eq_reentry (hb : Blocked free k h t) (hh : h ≤ n + 1) (ht : n ≤ t + 1) :
    (t + 1) % n = reentry free n h := by
  obtain ⟨hht, -, hused, hfree⟩ := hb
  have htn : t ≤ n + 1 := by
    by_contra hcon
    have hle := htop (n + 1) (hfree (n + 1) hh (by omega))
    omega
  obtain rfl | rfl | rfl : t = n - 1 ∨ t = n ∨ t = n + 1 := by omega
  · rw [reentry, if_pos ⟨by omega, hused⟩, show n - 1 + 1 = n by omega, Nat.mod_self]
  · have hone : ¬ (h < t ∧ ¬ free (t - 1)) := fun hcon =>
      hcon.2 (hfree (t - 1) (by omega) (by omega))
    rw [reentry, if_neg hone, if_pos ⟨hht, hused⟩, Nat.add_mod_left, Nat.mod_eq_of_lt (by omega)]
  · have hone : ¬ (h < n ∧ ¬ free (n - 1)) := fun hcon =>
      hcon.2 (hfree (n - 1) (by omega) (by omega))
    have htwo : ¬ (h ≤ n ∧ ¬ free n) := fun hcon => hcon.2 (hfree n (by omega) (by omega))
    rw [reentry, if_neg hone, if_neg htwo, Nat.add_assoc, Nat.add_mod_left,
      Nat.mod_eq_of_lt (by omega)]

/-- A search that does not meet `last` on its way up finds a row or begins again at `reentry`. -/
theorem finds_or_reenters (hh : h ≤ n + 1) (hne : h ≠ last)
    (hlast : ∀ i, h < i → i < n → ¬ free (i - 1) → i ≠ last) :
    (∃ g, Finds free n last k h g) ∨
      ReflTransGen (Next free n last k) h (reentry free n h) := by
  induction hd : n + 1 - h using Nat.strong_induction_on generalizing h with
  | _ d ih =>
    rcases window_or_blocked free k h with hhere | ⟨t, hb⟩
    · exact Or.inl ⟨h, ReflTransGen.refl, hne, hhere⟩
    · have hht := hb.1
      by_cases ht : t + 1 < n
      · have hnext : Next free n last k h (t + 1) :=
          ⟨hne, t, hb, (Nat.mod_eq_of_lt ht).symm⟩
        have hlast' : t + 1 ≠ last := hlast (t + 1) (by omega) ht (by simpa using hb.2.2.1)
        have hsame : reentry free n (t + 1) = reentry free n h :=
          (reentry_of_lt ht).trans (reentry_of_lt (by omega)).symm
        rcases ih (n + 1 - (t + 1)) (by omega) (by omega) hlast'
          (fun i hi hi' => hlast i (by omega) hi') rfl with ⟨g, hf⟩ | hr
        · exact Or.inl ⟨g, hf.of_reaches (ReflTransGen.single hnext)⟩
        · rw [hsame] at hr
          exact Or.inr (ReflTransGen.head hnext hr)
      · refine Or.inr (ReflTransGen.single ⟨hne, t, hb, ?_⟩)
        exact (hb.mod_eq_reentry hn htop hh (by omega)).symm

/-- Where a search comes from when it is at `0`. -/
theorem Next.pred_zero (hnext : Next free n last k h 0) (hh : h ≤ n + 1) :
    h ≠ last ∧ h < n ∧ ¬ free (n - 1) ∧ ∀ j, h ≤ j → j < n - 1 → free j := by
  obtain ⟨hne, t, hb, hmod⟩ := hnext
  obtain ⟨hht, -, hused, hfree⟩ := id hb
  by_cases ht : t + 1 < n
  · rw [Nat.mod_eq_of_lt ht] at hmod
    omega
  · rw [hb.mod_eq_reentry hn htop hh (by omega), reentry] at hmod
    split_ifs at hmod with hzero hone
    exact ⟨hne, hzero.1, hzero.2, fun j hj hj' => hfree j hj (by omega)⟩

theorem pred_of_reaches_zero (hr : ReflTransGen (Next free n last k) h 0) (hh : h ≤ n + 1)
    (hpos : h ≠ 0) :
    ∃ h', h' ≠ last ∧ h' < n ∧ ¬ free (n - 1) ∧ ∀ j, h' ≤ j → j < n - 1 → free j := by
  rcases ReflTransGen.cases_tail hr with rfl | ⟨h', hr', hnext⟩
  · exact absurd rfl hpos
  · have hlt := eq_or_lt_of_reaches (by omega) hr'
    exact ⟨h', hnext.pred_zero hn htop (by omega)⟩

/-- A search that comes to `1` from above has found the index after the ring used, or the last one
of it. -/
theorem pred_of_reaches_one (hr : ReflTransGen (Next free n last k) h 1) (hh : h ≤ n + 1)
    (hpos : 2 ≤ h) : ¬ free n ∨
      ∃ h', h' ≠ last ∧ h' < n ∧ ¬ free (n - 1) ∧ ∀ j, h' ≤ j → j < n - 1 → free j := by
  rcases ReflTransGen.cases_tail hr with rfl | ⟨h', hr', -, t, hb, hmod⟩
  · omega
  · have hlt := eq_or_lt_of_reaches (by omega) hr'
    by_cases ht : t + 1 < n
    · rw [Nat.mod_eq_of_lt ht] at hmod
      have hht := hb.1
      obtain rfl : h' = 0 := by omega
      exact Or.inr (pred_of_reaches_zero hn htop hr' hh (by omega))
    · rw [hb.mod_eq_reentry hn htop (by omega) (by omega), reentry] at hmod
      split_ifs at hmod with hzero hone
      · exact Or.inl hone.2
      · omega

end Wrap

/-! ### Searches that begin after `last` -/

/-- The search begins after `last`, or at `0` if `last` is no index of the ring or after it. -/
def Cursor (n last h : ℕ) : Prop := (h = last + 1 ∧ last ≤ n) ∨ (h = 0 ∧ n < last)

/-- Whether the search comes to a row at `1`: it does unless `last` is in the ring and the row of
free indices at its end carries every round past `1`. -/
def ReachesOne (free : ℕ → Prop) (n last : ℕ) : Prop :=
  last = 0 ∨ n < last ∨
    (reentry free n 0 ≤ 1 ∧ ¬ (last + 1 = n ∧ free n ∧ ¬ free (n - 2)))

theorem Cursor.le (hcur : Cursor n last h) : h ≤ n + 1 ∧ h ≠ last := by
  rcases hcur with ⟨rfl, hle⟩ | ⟨rfl, hlt⟩ <;> omega

section Cursor

variable (hn : 4 ≤ n) (htop : ∀ i, free i → i ≤ n)

include hn htop

theorem reachesOne_of_reaches (hcur : Cursor n last h)
    (hr : ReflTransGen (Next free n last k) h 1) : ReachesOne free n last := by
  rcases hcur with ⟨rfl, hle⟩ | ⟨-, hlt⟩
  · by_cases hlast : last = 0
    · exact Or.inl hlast
    refine Or.inr (Or.inr ?_)
    have htwo : 2 ≤ last + 1 := by omega
    rcases pred_of_reaches_one (by omega) htop hr (by omega) htwo with
      hused | ⟨h', hne', hlt, hused, hfree⟩
    · refine ⟨?_, fun hcon => hused hcon.2.1⟩
      rw [reentry]
      split_ifs with hzero hone
      · decide
      · decide
      · exact absurd ⟨Nat.zero_le n, hused⟩ hone
    · rw [reentry, if_pos ⟨by omega, hused⟩]
      exact ⟨by decide, fun hcon => hcon.2.2 (hfree (n - 2) (by omega) (by omega))⟩
  · exact Or.inr (Or.inl hlt)

/-- A search that has begun again at `2` finds a row at `1` in the next round. -/
theorem finds_one_from_two (hw : Window free k 1) (hend : n ≤ last + 1)
    (hre : reentry free n (last + 1) = 2) (he : reentry free n 0 ≤ 1)
    (hnot : ¬ (last + 1 = n ∧ free n ∧ ¬ free (n - 2))) : ∃ g, Finds free n last k 2 g := by
  have hlast : ∀ i, 2 < i → i < n → ¬ free (i - 1) → i ≠ last := by
    rintro i hi hi' hused rfl
    obtain rfl : n = i + 1 := by omega
    have hfree : free (i + 1) := by
      by_contra hcon
      rw [reentry, if_neg (fun hcon' => by omega), if_pos ⟨le_rfl, hcon⟩] at hre
      omega
    exact hnot ⟨rfl, hfree, hused⟩
  rcases finds_or_reenters (k := k) (by omega) htop (by omega) (by omega) hlast with hfound | hr
  · exact hfound
  · rw [reentry_of_lt (by omega)] at hr
    have hone : 1 = reentry free n 0 ∨ 1 < n := Or.inr (by omega)
    have hbefore : ∀ i, reentry free n 0 ≤ i → i ≤ 1 → i ≠ last := fun i _ hi => by omega
    obtain ⟨g, hg⟩ := finds_of_le hw he hone hbefore
    exact ⟨g, hg.of_reaches hr⟩

/-- A row below `last` is found after the end of the ring, where the search begins again at `2` at
the latest. -/
theorem finds_of_lt_last (hzero : ¬ free 0) (hle : last ≤ n) (hg : g < last)
    (hw : Window free k g) (hone : g = 1 → ReachesOne free n last) :
    ∃ g', Finds free n last k (last + 1) g' := by
  have hpos : g ≠ 0 := by
    rintro rfl
    exact hzero (hw 0 le_rfl (Nat.zero_le _))
  rcases finds_or_reenters (k := k) (by omega) htop (show last + 1 ≤ n + 1 by omega)
    (show last + 1 ≠ last by omega) (fun i hi hi' hused => by omega) with hfound | hr
  · exact hfound
  have htwo := reentry_le_two free n (last + 1)
  by_cases hwg : reentry free n (last + 1) ≤ g
  · have hlt : g = reentry free n (last + 1) ∨ g < n := Or.inr (by omega)
    have hbefore : ∀ i, reentry free n (last + 1) ≤ i → i ≤ g → i ≠ last := fun i _ hi => by omega
    obtain ⟨g', hg'⟩ := finds_of_le hw hwg hlt hbefore
    exact ⟨g', hg'.of_reaches hr⟩
  · obtain rfl : g = 1 := by omega
    have hre : reentry free n (last + 1) = 2 := by omega
    obtain hcon | hcon | ⟨he, hnot⟩ := hone rfl
    · omega
    · omega
    have hend : n ≤ last + 1 := by
      by_contra hcon
      rw [reentry_of_lt (by omega)] at hre
      omega
    rw [hre] at hr
    obtain ⟨g', hg'⟩ := finds_one_from_two hn htop hw hend hre he hnot
    exact ⟨g', hg'.of_reaches hr⟩

/-- The rows that the search finds. -/
theorem exists_finds_iff (hcur : Cursor n last h) (hzero : ¬ free 0) :
    (∃ g, Finds free n last k h g) ↔
      ∃ g, g ≠ last ∧ (g = h ∨ g < n) ∧ Window free k g ∧ (g = 1 → ReachesOne free n last) := by
  constructor
  · rintro ⟨g, hr, hne, hw⟩
    refine ⟨g, hne, eq_or_lt_of_reaches (by omega) hr, hw, ?_⟩
    rintro rfl
    exact reachesOne_of_reaches hn htop hcur hr
  · rintro ⟨g, hne, rfl | hlt, hw, hone⟩
    · exact ⟨g, ReflTransGen.refl, hne, hw⟩
    rcases hcur with ⟨rfl, hle⟩ | ⟨rfl, hgt⟩
    · by_cases hbelow : last < g
      · exact finds_of_le hw hbelow (Or.inr hlt) fun i hi hi' => by omega
      · exact finds_of_lt_last hn htop hzero hle (by omega) hw hone
    · exact finds_of_le hw (Nat.zero_le g) (Or.inr hlt) fun i hi hi' => by omega

/-- A search for a single index passes all indices of the ring but `last`, and its first one. -/
theorem exists_finds_zero_iff (hcur : Cursor n last h) (hzero : ¬ free 0) :
    (∃ g, Finds free n last 0 h g) ↔ ∃ i, (i = h ∨ (i < n ∧ i ≠ last)) ∧ free i := by
  have hne := hcur.le.2
  have hsingle (i : ℕ) : Window free 0 i ↔ free i :=
    ⟨fun hw => hw i le_rfl le_rfl, fun hi j hj hj' => by rwa [show j = i by omega]⟩
  rw [exists_finds_iff hn htop hcur hzero]
  simp only [hsingle]
  constructor
  · rintro ⟨g, hg, hin, hfree, -⟩
    exact ⟨g, hin.imp_right fun hlt => ⟨hlt, hg⟩, hfree⟩
  · rintro ⟨i, hi, hfree⟩
    by_cases hone : i = 1 → ReachesOne free n last
    · refine ⟨i, ?_, hi.imp_right And.left, hfree, hone⟩
      rcases hi with rfl | hi
      · exact hne
      · exact hi.2
    -- the search does not come to `1` because of a free index at the end of the ring
    have hnot := mt (fun h _ => h) hone
    simp only [ReachesOne, not_or, not_and, not_not, Classical.not_imp] at hnot
    obtain ⟨hpos, hle, hend⟩ := hnot
    obtain ⟨rfl, -⟩ : h = last + 1 ∧ last ≤ n := hcur.resolve_right fun hcon => hle hcon.2
    have hn' : n ≠ 1 := by omega
    have hn1 : n - 1 ≠ 1 := by omega
    by_cases he : reentry free n 0 ≤ 1
    · obtain ⟨heq, hfreen, -⟩ := hend he
      exact ⟨n, by omega, Or.inl heq.symm, hfreen, fun hcon => absurd hcon hn'⟩
    · rw [reentry] at he
      split_ifs at he with hused hused'
      · omega
      · omega
      have hfree1 : free (n - 1) := by
        by_contra hcon
        exact hused ⟨by omega, hcon⟩
      have hfreen : free n := by
        by_contra hcon
        exact hused' ⟨Nat.zero_le n, hcon⟩
      by_cases hlast : last = n - 1
      · exact ⟨n, by omega, Or.inl (by omega), hfreen, fun hcon => absurd hcon hn'⟩
      · exact ⟨n - 1, fun hcon => hlast hcon.symm, Or.inr (by omega), hfree1,
          fun hcon => absurd hcon hn1⟩

/-- A search that ends at `last` begins again there, or comes to it from the used index before
it. -/
theorem Stops.last_reached (hcur : Cursor n last h) (hr : Stops free n last k h) : last < n ∧
    (last = reentry free n 0 ∨ (reentry free n 0 < last ∧ ¬ free (last - 1))) := by
  have hle := hcur.le
  have htwo := reentry_le_two free n
  rcases ReflTransGen.cases_tail hr with hcon | ⟨h', hr', -, t, hb, hmod⟩
  · exact absurd hcon.symm hle.2
  have hh' := eq_or_lt_of_reaches (by omega) hr'
  have hlt : last < n := by
    rw [hmod]
    exact Nat.mod_lt _ (by omega)
  refine ⟨hlt, ?_⟩
  by_cases ht : t + 1 < n
  · rw [Nat.mod_eq_of_lt ht] at hmod
    have hge : reentry free n 0 ≤ last := by
      by_contra hcon
      -- `last` is `1`, and the search came to it from `0`
      have htwo0 := htwo 0
      have hht := hb.1
      obtain rfl : h' = 0 := by omega
      obtain ⟨-, -, -, hused, -⟩ := pred_of_reaches_zero (by omega) htop hr' hle.1 (by
        rcases hcur with hcur | hcur <;> omega)
      rw [reentry, if_pos ⟨by omega, hused⟩] at hcon
      omega
    rcases hge.eq_or_lt with heq | hlt'
    · exact Or.inl heq.symm
    · refine Or.inr ⟨hlt', ?_⟩
      rw [hmod, Nat.add_sub_cancel]
      exact hb.2.2.1
  · rw [hb.mod_eq_reentry (by omega) htop (by omega) (by omega)] at hmod
    have htwo' := htwo h'
    have hin : h' < n := by
      rcases hcur with hcur | hcur <;> omega
    rw [reentry_of_lt hin] at hmod
    exact Or.inl hmod

/-- Without a row to find, the search stops if it begins again at `last` after the end of the ring,
or comes to it from the used index before it. -/
theorem stops_iff (hcur : Cursor n last h) (hno : ∀ g, ¬ Window free k g) : Stops free n last k h ↔
    last < n ∧ (last = reentry free n 0 ∨ (reentry free n 0 < last ∧ ¬ free (last - 1))) := by
  refine ⟨Stops.last_reached hn htop hcur, ?_⟩
  rintro ⟨hlt, hstop⟩
  have hle := hcur.le
  have htwo := reentry_le_two free n
  obtain ⟨rfl, -⟩ : h = last + 1 ∧ last ≤ n := hcur.resolve_right fun hcon => by omega
  rcases finds_or_reenters (k := k) (by omega) htop hle.1 hle.2
    (fun i hi hi' hused => by omega) with ⟨g, -, -, hw⟩ | hr
  · exact absurd hw (hno g)
  refine hr.trans ?_
  by_cases hend : last + 1 < n
  · rw [reentry_of_lt hend]
    rcases hstop with heq | ⟨hlt', hused⟩
    · exact stops_of_le hno heq.ge hlt (Or.inl heq.symm)
    · exact stops_of_le hno hlt'.le hlt (Or.inr hused)
  · have htwo0 := htwo 0
    have htwo1 := htwo (last + 1)
    refine stops_of_le hno (by omega) hlt (Or.inr ?_)
    exact (hstop.resolve_left (by omega)).2

/-- Without a free index, the search stops if `last` is in the ring. -/
theorem stops_iff_of_forall_not (hcur : Cursor n last h) (hno : ∀ i, ¬ free i) :
    Stops free n last k h ↔ last < n := by
  have hwin (g : ℕ) : ¬ Window free k g := fun hw => hno g (hw g le_rfl (Nat.le_add_right g k))
  rw [stops_iff hn htop hcur hwin, reentry, if_pos ⟨by omega, hno (n - 1)⟩]
  refine ⟨And.left, fun hlt => ⟨hlt, ?_⟩⟩
  rcases Nat.eq_zero_or_pos last with hzero | hpos
  · exact Or.inl hzero
  · exact Or.inr ⟨hpos, hno _⟩

end Cursor

end RingSearch
