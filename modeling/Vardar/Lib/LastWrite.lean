import Mathlib.Data.List.Forall2

/-!
# The last write to a place

A sequence of writes leaves at each key the value of the last write to it, or what was there
before.

## Main definitions

* `LastWrite.last`: the value at a key after a sequence of writes.

## Main results

* `LastWrite.last_append`: one sequence after another.
* `LastWrite.last_eq_of_forall`: the value when all writes to a key agree.
* `LastWrite.last_of_plan`: the value when the writes follow a plan.
-/

namespace LastWrite

variable {κ ν : Type*} [DecidableEq κ]

/-- The value at `k` after the writes `ws`, `old` being there before. -/
def last (ws : List (κ × ν)) (k : κ) (old : ν) : ν :=
  ws.foldl (fun v w => if w.1 = k then w.2 else v) old

variable {ws ws' : List (κ × ν)} {k : κ} {v old : ν}

@[simp] theorem last_nil (k : κ) (old : ν) : last [] k old = old := rfl

theorem last_cons (w : κ × ν) (ws : List (κ × ν)) (k : κ) (old : ν) :
    last (w :: ws) k old = last ws k (if w.1 = k then w.2 else old) := rfl

theorem last_append (ws ws' : List (κ × ν)) (k : κ) (old : ν) :
    last (ws ++ ws') k old = last ws' k (last ws k old) :=
  List.foldl_append

theorem last_of_forall_ne (h : ∀ w ∈ ws, w.1 ≠ k) : last ws k old = old := by
  induction ws generalizing old with
  | nil => rfl
  | cons w ws ih =>
    rw [last_cons, if_neg (h w List.mem_cons_self)]
    exact ih fun w' hw' => h w' (List.mem_cons_of_mem w hw')

/-- The value is the old one or that of a write to the key. -/
theorem last_cases (ws : List (κ × ν)) (k : κ) (old : ν) :
    last ws k old = old ∨ ∃ w ∈ ws, w.1 = k ∧ last ws k old = w.2 := by
  induction ws generalizing old with
  | nil => exact .inl rfl
  | cons w ws ih =>
    rw [last_cons]
    rcases ih (if w.1 = k then w.2 else old) with heq | ⟨w', hw', hk, heq⟩
    · rw [heq]
      split_ifs with hw
      · exact .inr ⟨w, List.mem_cons_self, hw, rfl⟩
      · exact .inl rfl
    · exact .inr ⟨w', List.mem_cons_of_mem w hw', hk, heq⟩

/-- If there is a write to the key and all writes to it have the value `v`, that is the value. -/
theorem last_eq_of_forall (h : ∀ w ∈ ws, w.1 = k → w.2 = v) (hex : ∃ w ∈ ws, w.1 = k) :
    last ws k old = v := by
  obtain ⟨w, hw, hk⟩ := hex
  obtain ⟨xs, ys, rfl⟩ := List.append_of_mem hw
  rw [last_append, last_cons, if_pos hk]
  rcases last_cases ys k w.2 with heq | ⟨w', hw', hk', heq⟩
  · rw [heq]
    exact h w hw hk
  · rw [heq]
    exact h w' (List.mem_append_right _ (List.mem_cons_of_mem w hw')) hk'

/-- If there is a write to the key, the value is that of some write to it. -/
theorem last_of_exists (old : ν) (hex : ∃ w ∈ ws, w.1 = k) :
    ∃ w ∈ ws, w.1 = k ∧ last ws k old = w.2 := by
  obtain ⟨w, hw, hk⟩ := hex
  obtain ⟨xs, ys, rfl⟩ := List.append_of_mem hw
  rw [last_append, last_cons, if_pos hk]
  rcases last_cases ys k w.2 with heq | ⟨w', hw', hk', heq⟩
  · exact ⟨w, hw, hk, heq⟩
  · exact ⟨w', List.mem_append_right _ (List.mem_cons_of_mem w hw'), hk', heq⟩

/-! ### Writes that follow a plan -/

section Plan

variable {α β : Type*} {Rel : α → β → Prop} {plan xs ys : List α} {bs : List β} {a : α}

theorem exists_of_forall₂ (h : List.Forall₂ Rel plan bs) {b : β} (hb : b ∈ bs) :
    ∃ a ∈ plan, Rel a b := by
  induction h with
  | nil => simp at hb
  | cons hr _ ih =>
    rcases List.mem_cons.mp hb with rfl | hb
    · exact ⟨_, List.mem_cons_self, hr⟩
    · obtain ⟨a, ha, hr⟩ := ih hb
      exact ⟨a, List.mem_cons_of_mem _ ha, hr⟩

theorem exists_of_forall₂_left (h : List.Forall₂ Rel plan bs) (ha : a ∈ plan) :
    ∃ b ∈ bs, Rel a b := by
  induction h with
  | nil => simp at ha
  | cons hr _ ih =>
    rcases List.mem_cons.mp ha with rfl | ha
    · exact ⟨_, List.mem_cons_self, hr⟩
    · obtain ⟨b, hb, hr⟩ := ih ha
      exact ⟨b, List.mem_cons_of_mem _ hb, hr⟩

variable {key : α → κ} {write : β → κ × ν} (hkey : ∀ a b, Rel a b → (write b).1 = key a)

include hkey

/-- The last step of a plan for a key decides about its value. -/
theorem last_of_plan (h : List.Forall₂ Rel (xs ++ a :: ys) bs) (hk : key a = k)
    (hys : ∀ a' ∈ ys, key a' ≠ k) (old : ν) :
    ∃ b ∈ bs, Rel a b ∧ last (bs.map write) k old = (write b).2 := by
  induction xs generalizing bs old with
  | nil =>
    obtain ⟨b, bs', hr, hrest, rfl⟩ := List.forall₂_cons_left_iff.mp h
    refine ⟨b, List.mem_cons_self, hr, ?_⟩
    rw [List.map_cons, last_cons, if_pos ((hkey a b hr).trans hk)]
    refine last_of_forall_ne fun w hw => ?_
    obtain ⟨b', hb', rfl⟩ := List.mem_map.mp hw
    obtain ⟨a', ha', hr'⟩ := exists_of_forall₂ hrest hb'
    rw [hkey a' b' hr']
    exact hys a' ha'
  | cons x xs ih =>
    obtain ⟨b, bs', -, hrest, rfl⟩ := List.forall₂_cons_left_iff.mp h
    obtain ⟨b', hb', hr', heq⟩ := ih hrest (if (write b).1 = k then (write b).2 else old)
    exact ⟨b', List.mem_cons_of_mem _ hb', hr', heq⟩

end Plan

end LastWrite
