import Vardar.Lib.Run
import Vardar.Heap.Free

/-!
# Whole runs of the kernel heap

A run starts with `init_heap` on zeroed memory and calls `kalloc` with any size, `kfree` with a
live pointer, and lets callers write inside their live allocations. The regions handed out stay
inside the heap and apart from each other as long as no step takes one of the two branches in
which the source loses track of a block: a size that `SIZE_MASK` cuts, and a whole block handed
out with a footer written over the real one.

## Main definitions

* `Vardar.Kheap.State`, `Vardar.Kheap.Call`, `Vardar.Kheap.State.step`.
* `Vardar.Kheap.State.Sound`: the condition on a step.
* `Vardar.Kheap.State.RegionsOk`: live regions are inside the heap and pairwise disjoint.

## Main results

* `Vardar.Kheap.regionsOk_of_sound_run`: the regions are right after every run of sound steps.
* `Vardar.Kheap.regions_overlap_after_two_kallocs`: without the condition they are not.
-/

namespace Vardar.Kheap

open ByteMemory Word Tiling

/-! ### The heap `init_heap` leaves -/

/-- `t` empty blocks from `q` on, as the search reads zeroed memory. -/
def virgins : ℕ → ℕ → List Block
  | _, 0 => []
  | q, t + 1 => ⟨q, 0, .virgin⟩ :: virgins (q + 8) t

theorem tiles_virgins (q t : ℕ) : Tiles Block.addr Block.next q (virgins q t) (q + 8 * t) := by
  induction t generalizing q with
  | zero => exact rfl
  | succ t ih =>
    have hrest := ih (q + 8)
    rw [show q + 8 + 8 * t = q + 8 * (t + 1) by omega] at hrest
    exact ⟨rfl, by simp [Block.next], hrest⟩

theorem mem_virgins {q t : ℕ} {b : Block} (hb : b ∈ virgins q t) :
    ∃ i < t, b = ⟨q + 8 * i, 0, .virgin⟩ := by
  induction t generalizing q with
  | zero => simp [virgins] at hb
  | succ t ih =>
    rcases List.mem_cons.mp hb with rfl | hb
    · exact ⟨0, by omega, by simp⟩
    · obtain ⟨i, hi, rfl⟩ := ih hb
      exact ⟨i + 1, by omega, by rw [show q + 8 + 8 * i = q + 8 * (i + 1) by omega]⟩

/-- The heap `init_heap` leaves is one free block of the masked size and a row of empty ones. -/
theorem chain_initHeap {mem : Mem} {heapStart heapSize : ℕ} (heven : heapSize % 2 = 0)
    (h16 : 16 ≤ heapSize) (hfit : heapStart + heapSize < 2 ^ 64)
    (hzero : ∀ x, heapStart ≤ x → x < heapStart + heapSize → mem x = 0) :
    ∃ bs, Chain (initHeap mem heapStart heapSize) bs ∧ ∀ b ∈ bs, b.kind ≠ .used := by
  set w := (heapSize - 8) % 2 ^ 32 with hw
  set h1 : Heap := (Heap.mk mem heapStart heapSize).setTag heapStart (heapSize - 8) with hh1
  have htag : h1.tag heapStart = w := load_store_self mem heapStart 4 (heapSize - 8)
  have hinit : initHeap mem heapStart heapSize = h1.setTag (heapStart + 4 + w) w := by
    simp only [initHeap, mdataSize, headerSize]
    rw [sub64_of_le (by omega) (by omega), ← hh1, htag, add64_of_lt (a := heapStart) (by omega),
      add64_of_lt (by omega)]
  set h2 := h1.setTag (heapStart + 4 + w) w with hh2
  -- the masked size of the first block, a multiple of `2 ^ 16` below the size of the heap
  set s := w / 2 % 2 ^ 15 * 2 with hs
  have hws : w &&& sizeMask = s := land_sizeMask w
  obtain ⟨t, ht⟩ : ∃ t, heapSize = s + 8 + 8 * t := ⟨(heapSize - 8 - s) / 8, by omega⟩
  have hhead : h2.tag heapStart = w := by
    rw [hh2, Heap.tag_setTag_of_disjoint (by omega), htag]
  have hvirgin (i : ℕ) (hi : i < t) : h2.tag (heapStart + s + 8 + 8 * i) = 0 := by
    rw [hh2, Heap.tag_setTag_of_disjoint (by omega), hh1, Heap.tag_setTag_of_disjoint (by omega)]
    exact load_eq_zero fun x hx hx' => hzero x (by omega) (by omega)
  refine ⟨⟨heapStart, s, .free⟩ :: virgins (heapStart + s + 8) t, ?_, ?_⟩
  · rw [hinit]
    refine ⟨hfit, ?_, ?_, ?_, ?_, ?_⟩
    · have hrest := tiles_virgins (heapStart + s + 8) t
      rw [show heapStart + s + 8 + 8 * t = heapStart + heapSize by omega] at hrest
      exact ⟨rfl, by simp only [Block.next]; omega, hrest⟩
    · intro b hb
      rcases List.mem_cons.mp hb with rfl | hb
      · refine ⟨by rw [hhead]; exact hws, ?_⟩
        simp only [hhead, land_one, reduceCtorEq, iff_false]
        omega
      · obtain ⟨i, hi, rfl⟩ := mem_virgins hb
        rw [Block.HeadOk, hvirgin i hi]
        simp
    · intro b hb hk
      rcases List.mem_cons.mp hb with rfl | hb
      · simp at hk
      · obtain ⟨i, hi, rfl⟩ := mem_virgins hb
        exact hvirgin i hi
    · intro b hb hk
      rcases List.mem_cons.mp hb with rfl | hb
      · simp at hk
      · obtain ⟨i, hi, rfl⟩ := mem_virgins hb
        simp at hk
    · have hkind (c : Block) (hc : c ∈ virgins (heapStart + s + 8) t) : c.kind = .virgin := by
        obtain ⟨i, -, rfl⟩ := mem_virgins hc
        rfl
      exact List.Pairwise.cons (fun c hc hv => absurd (hkind c hc) hv)
        (List.pairwise_of_forall_mem_list fun _ _ c hc hv => absurd (hkind c hc) hv)
  · intro b hb
    rcases List.mem_cons.mp hb with rfl | hb
    · simp
    · obtain ⟨i, hi, rfl⟩ := mem_virgins hb
      simp

/-! ### `kalloc` on the block chain -/

/-- The block the search stops at, if any, can be cut for the rounded request. -/
def KallocOk (h : Heap) (size : ℕ) : Prop :=
  findBlock h size h.size h.start < h.limit →
    SplitOk h (findBlock h size h.size h.start) (evenSize size)

instance (h : Heap) (size : ℕ) : Decidable (KallocOk h size) :=
  inferInstanceAs (Decidable (_ → _))

theorem evenSize_spec {size : ℕ} (h : size < 2 ^ 32) :
    evenSize size % 2 = 0 ∧ size ≤ evenSize size := by
  rw [evenSize, add64_of_lt (by omega), Nat.shiftRight_eq_div_pow, Nat.shiftLeft_eq]
  omega

/-- `kalloc` fails without effect, or turns a free block into a used one of the requested size. -/
theorem Chain.kalloc {h : Heap} {bs : List Block} (hc : Chain h bs) {size : ℕ}
    (hok : KallocOk h size) :
    Kheap.kalloc h size = (none, h) ∨ ∃ (xs zs : List Block) (y : Block) (h' : Heap) (n : ℕ),
      bs = xs ++ ([y] ++ zs) ∧ y.kind = .free ∧ size ≤ n ∧ n ≤ y.size ∧
      Kheap.kalloc h size = (some (y.addr + 4), h') ∧ Chain h' (xs ++ (splitBlocks y n ++ zs)) := by
  rcases hc.findBlock_spec size with hnone | ⟨y, hy, hptr, hk, hsz⟩
  · left
    simp only [Kheap.kalloc, hnone, lt_irrefl, if_false]
  · right
    obtain ⟨xs, zs, rfl⟩ := List.append_of_mem hy
    have hc' : Chain h (xs ++ ([y] ++ zs)) := hc
    have hin : y.addr < h.limit := by
      have hb := (hc'.bounds (b := y) (by simp)).2
      rw [hc'.limit_eq]
      omega
    have hsplit : SplitOk h y.addr (evenSize size) := hptr ▸ hok (hptr ▸ hin)
    obtain ⟨heven, hle⟩ := evenSize_spec (hsz.trans (h.tag_lt y.addr))
    have hny : evenSize size ≤ y.size := (hc'.head y (by simp)).1 ▸ hsplit.1
    have hbody : add64 y.addr headerSize = y.addr + 4 := by
      have hb := (hc'.bounds (b := y) (by simp)).2
      have hfit := hc'.fits
      exact add64_of_lt (by simp only [headerSize]; omega)
    have hchain := hc'.splitBlock hk heven hsplit
    set h1 := (Kheap.splitBlock h y.addr (evenSize size)).2 with hh1
    refine ⟨xs, zs, y, { h1 with mem := memset h1.mem (y.addr + 4) 0 (evenSize size) },
      evenSize size, rfl, hk, hle, hny, ?_, ?_⟩
    · simp only [Kheap.kalloc, hptr, if_pos hin, hbody, ← hh1]
    -- the zeroing touches the body of the block only
    · obtain ⟨b, hb, haddr, hsize⟩ : ∃ b ∈ xs ++ (splitBlocks y (evenSize size) ++ zs),
          b.addr = y.addr ∧ evenSize size ≤ b.size := by
        simp only [splitBlocks]
        split_ifs
        · exact ⟨⟨y.addr, y.size, .used⟩, by simp, rfl, hny⟩
        · exact ⟨⟨y.addr, evenSize size, .used⟩, by simp, rfl, le_rfl⟩
      refine hchain.body_write hb rfl rfl fun x hx => ?_
      exact fill_of_notMem (by omega)

theorem kalloc_bounds {h h' : Heap} {size : ℕ} {r : Option ℕ}
    (hr : kalloc h size = (r, h')) :
    h'.start = h.start ∧ h'.size = h.size := by
  simp only [kalloc] at hr
  split_ifs at hr
  · obtain ⟨-, rfl⟩ := Prod.mk.inj hr
    exact ⟨Chain.splitBlock_start .., Chain.splitBlock_size ..⟩
  · obtain ⟨-, rfl⟩ := Prod.mk.inj hr
    exact ⟨rfl, rfl⟩

/-! ### Runs -/

/-- The heap and the live allocations, each with the size it was requested with. -/
structure State where
  heap : Heap
  live : List (ℕ × ℕ)

/-- A step of a run: a call, or a write of one byte by a caller. -/
inductive Call
  | kalloc (size : ℕ)
  | kfree (allocation : ℕ)
  | write (address : ℕ) (value : BitVec 8)

namespace State

/-- The state after a call. -/
def step (s : State) : Call → State
  | .kalloc size =>
    match Kheap.kalloc s.heap size with
    | (some p, h) => ⟨h, (p, size) :: s.live⟩
    | (none, h) => ⟨h, s.live⟩
  | .kfree p => ⟨Kheap.kfree s.heap p, s.live.filter fun r => r.1 ≠ p⟩
  | .write a v => ⟨{ s.heap with mem := Function.update s.heap.mem a v }, s.live⟩

/-- Only live pointers are freed, and callers write inside their live allocations. -/
def Allowed (s : State) : Call → Prop
  | .kalloc _ => True
  | .kfree p => ∃ r ∈ s.live, r.1 = p
  | .write a _ => ∃ r ∈ s.live, r.1 ≤ a ∧ a < r.1 + r.2

instance (s : State) (c : Call) : Decidable (s.Allowed c) :=
  match c with
  | .kalloc _ => instDecidableTrue
  | .kfree p => inferInstanceAs (Decidable (∃ r ∈ s.live, r.1 = p))
  | .write a _ => inferInstanceAs (Decidable (∃ r ∈ s.live, r.1 ≤ a ∧ a < r.1 + r.2))

/-- The step does not take a branch that loses track of a block: `kalloc` stops at a block that
can be cut, and the block `kfree` leaves has a size below `SIZE_MASK`. -/
def Sound (s : State) : Call → Prop
  | .kalloc size => KallocOk s.heap size
  | .kfree p => mergedSize s.heap p ≤ sizeMask
  | .write _ _ => True

instance (s : State) (c : Call) : Decidable (s.Sound c) :=
  match c with
  | .kalloc size => inferInstanceAs (Decidable (KallocOk s.heap size))
  | .kfree p => inferInstanceAs (Decidable (mergedSize s.heap p ≤ sizeMask))
  | .write _ _ => instDecidableTrue

/-- The live regions lie inside the heap and are pairwise disjoint. -/
def RegionsOk (s : State) (heapStart heapSize : ℕ) : Prop :=
  (∀ r ∈ s.live, heapStart ≤ r.1 ∧ r.1 + r.2 ≤ heapStart + heapSize) ∧
    s.live.Pairwise fun r r' => r.1 + r.2 ≤ r'.1 ∨ r'.1 + r'.2 ≤ r.1

instance (s : State) (heapStart heapSize : ℕ) : Decidable (s.RegionsOk heapStart heapSize) :=
  inferInstanceAs (Decidable (_ ∧ _))

/-- The state after `init_heap`. -/
def boot (mem : Mem) (heapStart heapSize : ℕ) : State := ⟨initHeap mem heapStart heapSize, []⟩

/-- The live allocations sit in distinct used blocks of a chain. -/
def Inv (heapStart heapSize : ℕ) (s : State) : Prop :=
  s.heap.start = heapStart ∧ s.heap.size = heapSize ∧ ∃ bs, Chain s.heap bs ∧
    s.live.Pairwise (fun r r' => r.1 ≠ r'.1) ∧
    ∀ r ∈ s.live, ∃ b ∈ bs, b.kind = .used ∧ r.1 = b.addr + 4 ∧ r.2 ≤ b.size

variable {heapStart heapSize : ℕ} {s : State}

theorem inv_boot {mem : Mem} (heven : heapSize % 2 = 0) (h16 : 16 ≤ heapSize)
    (hfit : heapStart + heapSize < 2 ^ 64)
    (hzero : ∀ x, heapStart ≤ x → x < heapStart + heapSize → mem x = 0) :
    Inv heapStart heapSize (boot mem heapStart heapSize) := by
  obtain ⟨bs, hc, -⟩ := chain_initHeap heven h16 hfit hzero
  exact ⟨rfl, rfl, bs, hc, List.Pairwise.nil, by simp [boot]⟩

/-- Live allocations stay live when every used block stays. -/
theorem live_kept {bs bs' : List Block} {live : List (ℕ × ℕ)} (hk : Kept bs bs')
    (hl : ∀ r ∈ live, ∃ b ∈ bs, b.kind = .used ∧ r.1 = b.addr + 4 ∧ r.2 ≤ b.size) :
    ∀ r ∈ live, ∃ b ∈ bs', b.kind = .used ∧ r.1 = b.addr + 4 ∧ r.2 ≤ b.size := by
  intro r hr
  obtain ⟨b, hb, hu, hp, hs⟩ := hl r hr
  obtain ⟨b', hb', hu', ha, hs'⟩ := hk b hb hu
  exact ⟨b', hb', hu', by rw [hp, ha], hs.trans hs'⟩

theorem inv_kalloc {size : ℕ} (hi : Inv heapStart heapSize s) (hok : KallocOk s.heap size) :
    Inv heapStart heapSize (s.step (.kalloc size)) := by
  obtain ⟨hstart, hsize, bs, hc, hd, hl⟩ := hi
  rcases hc.kalloc hok with hnone | ⟨xs, zs, y, h', n, rfl, hk, hle, hny, hsome, hc'⟩
  · simp only [step, hnone]
    exact ⟨hstart, hsize, bs, hc, hd, hl⟩
  · simp only [step, hsome]
    have hkept : Kept (xs ++ ([y] ++ zs)) (xs ++ (Chain.splitBlocks y n ++ zs)) :=
      Kept.splice fun c hcy hu => by
        rw [List.mem_singleton.mp hcy, hk] at hu
        exact absurd hu (by simp)
    obtain ⟨hstart', hsize'⟩ := kalloc_bounds hsome
    refine ⟨hstart'.trans hstart, hsize'.trans hsize, _, hc', List.Pairwise.cons ?_ hd, ?_⟩
    · intro r hr heq
      obtain ⟨b, hb, hu, hp, -⟩ := hl r hr
      have hby : b = y := hc.addr_inj hb (by simp) (by simp only at heq; omega)
      rw [hby, hk] at hu
      exact absurd hu (by simp)
    · intro r hr
      rcases List.mem_cons.mp hr with rfl | hr
      · simp only [Chain.splitBlocks]
        split_ifs
        · exact ⟨⟨y.addr, y.size, .used⟩, by simp, rfl, rfl, hle.trans hny⟩
        · exact ⟨⟨y.addr, n, .used⟩, by simp, rfl, rfl, hle⟩
      · exact live_kept hkept hl r hr

theorem inv_kfree {p : ℕ} (hi : Inv heapStart heapSize s) (ha : s.Allowed (.kfree p))
    (hok : mergedSize s.heap p ≤ sizeMask) : Inv heapStart heapSize (s.step (.kfree p)) := by
  obtain ⟨hstart, hsize, bs, hc, hd, hl⟩ := hi
  obtain ⟨r, hr, rfl⟩ := ha
  obtain ⟨b, hb, hu, hp, -⟩ := hl r hr
  obtain ⟨xs, zs, rfl⟩ := List.append_of_mem hb
  have hc' : Chain s.heap (xs ++ ([b] ++ zs)) := hc
  obtain ⟨hstart', hsize', bs', hfree, hkept⟩ := hc'.kfree hu (hp ▸ hok)
  simp only [step, hp, Inv]
  refine ⟨hstart'.trans hstart, hsize'.trans hsize, bs', hfree, hd.filter _, live_kept hkept ?_⟩
  intro r' hr'
  obtain ⟨hr', hne⟩ := List.mem_filter.mp hr'
  obtain ⟨b', hb', hu', hp', hs'⟩ := hl r' hr'
  refine ⟨b', ?_, hu', hp', hs'⟩
  have hbb : b' ≠ b := by
    rintro rfl
    simp [hp'] at hne
  simp only [List.mem_append, List.mem_cons] at hb' ⊢
  rcases hb' with hb' | rfl | hb'
  · exact .inl hb'
  · exact absurd rfl hbb
  · exact .inr hb'

theorem inv_write {a : ℕ} {v : BitVec 8} (hi : Inv heapStart heapSize s)
    (ha : s.Allowed (.write a v)) : Inv heapStart heapSize (s.step (.write a v)) := by
  obtain ⟨hstart, hsize, bs, hc, hd, hl⟩ := hi
  obtain ⟨r, hr, hlo, hhi⟩ := ha
  obtain ⟨b, hb, hu, hp, hs⟩ := hl r hr
  refine ⟨hstart, hsize, bs, hc.body_write hb rfl rfl fun x hx => ?_, hd, hl⟩
  exact Function.update_of_ne (by omega) _ _

/-- A sound step keeps the invariant. -/
theorem inv_step {c : Call} (hi : Inv heapStart heapSize s) (hc : s.Allowed c ∧ s.Sound c) :
    Inv heapStart heapSize (s.step c) := by
  cases c with
  | kalloc size => exact inv_kalloc hi hc.2
  | kfree p => exact inv_kfree hi hc.1 hc.2
  | write a v => exact inv_write hi hc.1

/-- Distinct used blocks have disjoint bodies inside the heap. -/
theorem Inv.regionsOk (hi : Inv heapStart heapSize s) : s.RegionsOk heapStart heapSize := by
  obtain ⟨rfl, rfl, bs, hc, hd, hl⟩ := hi
  constructor
  · intro r hr
    obtain ⟨b, hb, -, hp, hs⟩ := hl r hr
    have hbd := hc.bounds hb
    omega
  · refine hd.imp_of_mem fun {r r'} hr hr' hne => ?_
    obtain ⟨b, hb, -, hp, hs⟩ := hl r hr
    obtain ⟨b', hb', -, hp', hs'⟩ := hl r' hr'
    have hcase := hc.apart hb hb' (by omega)
    omega

end State

/-- **Live regions are inside the heap and disjoint.** After `init_heap` with any even size of at
least 16, along every run of `kalloc` with any size, `kfree` of live pointers and writes of callers
inside their live allocations whose steps are sound. -/
theorem regionsOk_of_sound_run {mem : Mem} {heapStart heapSize : ℕ} (heven : heapSize % 2 = 0)
    (h16 : 16 ≤ heapSize) (hfit : heapStart + heapSize < 2 ^ 64)
    (hzero : ∀ x, heapStart ≤ x → x < heapStart + heapSize → mem x = 0) (calls : List Call)
    (hrun : Run.Along State.step (fun s c => s.Allowed c ∧ s.Sound c)
      (State.boot mem heapStart heapSize) calls) :
    (calls.foldl State.step (State.boot mem heapStart heapSize)).RegionsOk heapStart heapSize :=
  (hrun.invariant (fun _ _ => State.inv_step) (State.inv_boot heven h16 hfit hzero)).regionsOk

/-- The condition holds of ordinary use: three allocations on a heap of 64 bytes, with a write and
two frees that merge the whole heap again. -/
theorem regionsOk_of_sound_run_small :
    ([Call.kalloc 8, .kalloc 6, .write 4101 1, .kfree 4100, .kalloc 2, .kfree 4116].foldl
      State.step (State.boot (fun _ => 0) 4096 64)).RegionsOk 4096 64 :=
  regionsOk_of_sound_run (by decide) (by decide) (by decide) (fun _ _ _ => rfl) _
    (by decide +kernel)

/-- On the heap the kernel asks for, the header of the first block records no size, and two
allocations get one region. On a heap of 64 bytes, a block of four bytes handed out for a request
of two loses its footer, and later frees merge it into blocks they do not border. -/
theorem regions_overlap_after_two_kallocs :
    (Run.Along State.step State.Allowed (State.boot (fun _ => 0) 0xffff800000100000 0x20000)
        [.kalloc 0xFFFA, .kalloc 0xFFFA] ∧
      ¬ ([Call.kalloc 0xFFFA, .kalloc 0xFFFA].foldl State.step
        (State.boot (fun _ => 0) 0xffff800000100000 0x20000)).RegionsOk
          0xffff800000100000 0x20000) ∧
    (Run.Along State.step State.Allowed (State.boot (fun _ => 0) 4096 64)
        [.kalloc 2, .kalloc 4, .kalloc 2, .kfree 4110, .kalloc 2, .kfree 4100, .kfree 4110,
          .kalloc 100] ∧
      ¬ ([Call.kalloc 2, .kalloc 4, .kalloc 2, .kfree 4110, .kalloc 2, .kfree 4100, .kfree 4110,
          .kalloc 100].foldl State.step (State.boot (fun _ => 0) 4096 64)).RegionsOk 4096 64) := by
  decide +kernel

end Vardar.Kheap
