import Vardar.Acpi.Acpi
import Vardar.Acpi.Encoding
import Vardar.Lib.Loop

/-!
# Tables that no firmware should make

`ParseMadt` adds the length byte of a record to its offset and appends the record to an array of one
frame, whatever the bytes of the table are. What it does with a table is a walk over the table that
only counts: the offset, and the number of records of each kind so far. The two go together as long
as the records stay inside their frames.

A header may begin in the last byte of the table. Its length byte is then the byte behind the
table, which may be the first byte of one of the arrays.

The walk is over the table as it was before. Registering an I/O APIC stores through the address in
its record, so the walk is that of the loop only if these stores miss what is still to be read.

## Main definitions

* `Vardar.Madt.rounds`: the rounds of the loop. `Vardar.Madt.Robust`: what they should do.
* `Vardar.Madt.Walk`, `Vardar.Madt.Walk.Good`: the walk that counts.
* `Vardar.Madt.later`, `Vardar.Madt.Undisturbed`: the bytes still to be read, and that registering an
  I/O APIC misses them.
* `Vardar.Madt.Tracks`: a state of the loop and a walk go together.

## Main results

* `Vardar.Madt.Tracks.round`: a round keeps them together.
* `Vardar.Madt.parseMadt_robust_iff`: the tables for which `ParseMadt` is robust.
-/

namespace Vardar.Madt

open ByteMemory Word

/-! ### Rounds -/

/-- The kind of the records of a type. -/
def Kind.ofType : ℕ → Option Kind
  | 0x00 => some .lapic
  | 0x01 => some .ioApic
  | 0x02 => some .iso
  | 0x03 => some .nmiSource
  | 0x04 => some .nmi
  | _ => none

/-- One round of the loop of `ParseMadt`, with the offset and the state. -/
def round (env : Env) (madt : ℕ) (p : ℕ × State) : ℕ × State :=
  (p.1 + (p.2.machine.mem (madt + madtRecordsOffset + p.1 + 1)).toNat,
    parseRecord env (madt + madtRecordsOffset + p.1) p.2)

/-- `madt_len`. -/
def madtLen (m : Mem) (madt : ℕ) : ℤ := int32 (load m (madt + 4) 4)

/-- The state before round `n`. -/
def rounds (env : Env) (madt : ℕ) (s : State) (n : ℕ) : ℕ × State :=
  (round env madt)^[n] (0, allocArrays s)

/-- A header at this offset is read. -/
def Goes (len : ℤ) (i : ℕ) : Prop := (madtRecordsOffset + i : ℤ) < len

instance (len : ℤ) (i : ℕ) : Decidable (Goes len i) := inferInstanceAs (Decidable (_ < _))

/-- The record that a round stores, if it stores one, lies inside the frame of its array. -/
def Inside (f : Kind → ℕ) (madt : ℕ) (p : ℕ × State) : Prop :=
  ∀ k, Kind.ofType (p.2.machine.mem (madt + madtRecordsOffset + p.1)).toNat = some k →
    f k ≤ frame p.2.smp k + k.layout.size * num p.2.smp k ∧
      frame p.2.smp k + k.layout.size * num p.2.smp k + k.layout.size ≤ f k + frameSize

/-- `ParseMadt` ends, every record that it stores lies inside the frame of its array, and its
offset is always an `int`. -/
structure Robust (env : Env) (f : Kind → ℕ) (madt : ℕ) (s : State) : Prop where
  ends : ∃ fuel s', parseMadt env fuel madt s = some s'
  inside : ∀ n, Goes (madtLen s.machine.mem madt) (rounds env madt s n).1 →
    Inside f madt (rounds env madt s n)
  int : ∀ n, Goes (madtLen s.machine.mem madt) (rounds env madt s n).1 →
    madtRecordsOffset + (rounds env madt s (n + 1)).1 < 2 ^ 31

/-! ### The walk -/

/-- The offset and the number of records of each kind. -/
structure Walk where
  offset : ℕ
  count : Kind → ℕ

/-- A byte, when some records are stored: the first byte of an array is zero until a record is
stored there, and then the type of the record. -/
def byteAt (f : Kind → ℕ) (m : Mem) (count : Kind → ℕ) (x : ℕ) : ℕ :=
  ([Kind.ioApic, .lapic, .iso, .nmiSource, .nmi].find? fun k => f k = x).elim (m x).toNat fun k =>
    if count k = 0 then 0 else k.type

namespace Walk

variable (f : Kind → ℕ) (m : Mem) (madt : ℕ) (w : Walk)

/-- The address of the header. -/
def header : ℕ := madt + madtRecordsOffset + w.offset

/-- The kind of the record. -/
def kind : Option Kind := Kind.ofType (m (w.header madt)).toNat

/-- The numbers of records with this one. -/
def stored : Kind → ℕ :=
  (w.kind m madt).elim w.count fun k => Function.update w.count k (w.count k + 1)

/-- The address in the record of an I/O APIC. -/
def ioApicAddr : ℕ := load m (w.header madt + 4) 4

/-- What is read of a record: the type, the length and, of an I/O APIC, the address as far as it is
in the table. -/
def reads : Set ℕ :=
  {x | x = w.header madt ∨ x = w.header madt + 1 ∨ w.kind m madt = some .ioApic ∧
    w.header madt + 4 ≤ x ∧ x < w.header madt + 8 ∧ x < madt + load m (madt + 4) 4}

/-- The next header. -/
def next : Walk := ⟨w.offset + byteAt f m w.count (w.header madt + 1), w.stored m madt⟩

/-- The header is not one that stops the walk, there is room for the record, and the next offset is
an `int`. -/
structure Good : Prop where
  length : byteAt f m (w.stored m madt) (w.header madt + 1) ≠ 0
  fits : ∀ k, w.kind m madt = some k → k.layout.size * (w.count k + 1) ≤ frameSize
  int : madtRecordsOffset + (w.next f m madt).offset < 2 ^ 31

end Walk

/-- The walk before round `n`. -/
def walks (f : Kind → ℕ) (m : Mem) (madt n : ℕ) : Walk :=
  (Walk.next f m madt)^[n] ⟨0, fun _ => 0⟩

/-- The bytes that the walk reads from round `n` on. -/
def later (f : Kind → ℕ) (m : Mem) (madt n : ℕ) : Set ℕ :=
  {x | ∃ j, n ≤ j ∧ Goes (madtLen m madt) (walks f m madt j).offset ∧
    x ∈ (walks f m madt j).reads m madt}

/-- Whenever the walk goes on behind an I/O APIC, the address in its record is in the table, and its
registers are those of a controller or apart from the bytes that the walk still reads. -/
def Undisturbed (env : Env) (f : Kind → ℕ) (m : Mem) (madt : ℕ) : Prop :=
  ∀ n, (walks f m madt n).kind m madt = some .ioApic →
    Goes (madtLen m madt) (walks f m madt (n + 1)).offset →
      (walks f m madt n).header madt + 8 ≤ madt + load m (madt + 4) 4 ∧
        env.Spares ((walks f m madt n).ioApicAddr m madt) (later f m madt (n + 1))

/-! ### The rounds as a loop -/

section Loop

variable {env : Env} {f : Kind → ℕ} {m : Mem} {s : State} {k : Kind} {madt record n : ℕ} {len : ℤ}

theorem parseRecords_eq_whileLoop (env : Env) (madt : ℕ) (len : ℤ) (fuel i : ℕ) (s : State) :
    parseRecords env madt len fuel i s =
      (Loop.whileLoop (fun p => Goes len p.1) (round env madt) fuel (i, s)).map Prod.snd := by
  induction fuel generalizing i s with
  | zero => rfl
  | succ fuel ih =>
    rw [parseRecords, Loop.whileLoop]
    by_cases hgo : (madtRecordsOffset + i : ℤ) < len
    · rw [if_pos hgo, if_pos (show Goes len i from hgo)]
      exact ih _ _
    · rw [if_neg hgo, if_neg (show ¬ Goes len i from hgo)]
      rfl

/-- `ParseMadt` ends if some round does not read a header. -/
theorem exists_parseMadt_iff : (∃ fuel s', parseMadt env fuel madt s = some s') ↔
    ∃ n, ¬ Goes (madtLen s.machine.mem madt) (rounds env madt s n).1 := by
  have hloop : ∀ fuel, parseMadt env fuel madt s =
      (Loop.whileLoop (fun p => Goes (madtLen s.machine.mem madt) p.1) (round env madt) fuel
        (0, allocArrays s)).map Prod.snd :=
    fun fuel => parseRecords_eq_whileLoop env madt _ fuel 0 _
  have hends : Loop.Ends (fun p : ℕ × State => Goes (madtLen s.machine.mem madt) p.1)
      (round env madt) (0, allocArrays s) ↔
        ∃ n, ¬ Goes (madtLen s.machine.mem madt) (rounds env madt s n).1 := Iff.rfl
  rw [← hends, ← Loop.exists_whileLoop_iff]
  constructor
  · rintro ⟨fuel, s', h⟩
    rw [hloop] at h
    obtain ⟨p, hp, -⟩ := Option.map_eq_some_iff.mp h
    exact ⟨fuel, p, hp⟩
  · rintro ⟨fuel, p, hp⟩
    exact ⟨fuel, p.2, by rw [hloop, hp, Option.map_some]⟩

theorem Goes.mono {i j : ℕ} (hij : i ≤ j) (h : Goes len j) : Goes len i := by
  rw [Goes] at h ⊢
  omega

theorem rounds_succ (env : Env) (madt : ℕ) (s : State) (n : ℕ) :
    rounds env madt s (n + 1) = round env madt (rounds env madt s n) :=
  Function.iterate_succ_apply' ..

theorem walks_succ (f : Kind → ℕ) (m : Mem) (madt n : ℕ) :
    walks f m madt (n + 1) = (walks f m madt n).next f m madt :=
  Function.iterate_succ_apply' ..

theorem rounds_offset_mono (env : Env) (madt : ℕ) (s : State) :
    Monotone fun n => (rounds env madt s n).1 :=
  monotone_nat_of_le_succ fun n => by
    rw [rounds_succ]
    exact Nat.le_add_right _ _

theorem walks_offset_mono (f : Kind → ℕ) (m : Mem) (madt : ℕ) :
    Monotone fun n => (walks f m madt n).offset :=
  monotone_nat_of_le_succ fun n => by
    rw [walks_succ]
    exact Nat.le_add_right _ _

/-! ### One round -/

theorem Kind.type_eq_of_ofType (h : Kind.ofType n = some k) : n = k.type := by
  unfold Kind.ofType at h
  split at h
  all_goals first | exact absurd h (Option.some_ne_none k).symm | (cases h; rfl)

theorem Kind.five_le_of_ofType (h : Kind.ofType n = none) : 5 ≤ n := by
  rcases n with _ | _ | _ | _ | _ | n
  all_goals first | exact absurd h (Option.some_ne_none _) | omega

/-- A round that stores a record stores it behind the last one of its kind. What it does to an I/O
APIC's registers misses some bytes. -/
theorem parseRecord_of_some (env : Env) {bytes : Set ℕ}
    (h : Kind.ofType (s.machine.mem record).toNat = some k)
    (hspares : k = .ioApic →
      env.Spares (ioApicLayout.read s.machine.mem record).ioApicAddr.toNat bytes) :
    (parseRecord env record s).smp = bump s.smp k ∧
      ∀ x ∈ bytes, (parseRecord env record s).machine.mem x =
        (appended s k record).machine.mem x := by
  have htype := Kind.type_eq_of_ofType h
  by_cases hk : k = .ioApic
  · subst hk
    rw [parseRecord_ioApic htype]
    exact ⟨(State.registerIoapic_stays ..).smp,
      fun x hx => State.mem_registerIoapic (hspares rfl) hx _⟩
  · rw [parseRecord_of_type htype hk]
    exact ⟨rfl, fun _ _ => rfl⟩

/-- The other rounds store nothing. -/
theorem parseRecord_of_none (env : Env) (h : Kind.ofType (s.machine.mem record).toNat = none) :
    ∃ addr, parseRecord env record s = { s with smp := { s.smp with lapicAddr := addr } } := by
  have hge := Kind.five_le_of_ofType h
  generalize hn : (s.machine.mem record).toNat = n at hge
  rw [parseRecord, hn]
  split
  all_goals first | omega | exact ⟨_, rfl⟩

end Loop

/-! ### Bytes of the table -/

section Byte

variable {f : Kind → ℕ} {m : Mem} {count : Kind → ℕ} {madt len x : ℕ}

theorem Apart.frame_inj (hap : Apart f madt len) {j k : Kind} (h : f j = f k) : j = k := by
  by_contra hne
  have hframes := hap.frames j k hne
  have hpos : 0 < frameSize := by decide
  omega

theorem byteAt_frame (hap : Apart f madt len) (k : Kind) :
    byteAt f m count (f k) = if count k = 0 then 0 else k.type := by
  rw [byteAt]
  cases hfind : [Kind.ioApic, .lapic, .iso, .nmiSource, .nmi].find? fun j => f j = f k with
  | some j =>
    have hj : f j = f k := by simpa using List.find?_some hfind
    rw [Option.elim_some, hap.frame_inj hj]
  | none =>
    have hall := List.find?_eq_none.mp hfind k (by cases k <;> decide)
    simp at hall

theorem byteAt_of_ne (h : ∀ k, f k ≠ x) : byteAt f m count x = (m x).toNat := by
  have hfind : ([Kind.ioApic, .lapic, .iso, .nmiSource, .nmi].find? fun k => f k = x) = none :=
    List.find?_eq_none.mpr fun k _ => by simpa using h k
  rw [byteAt, hfind, Option.elim_none]

/-- The bytes of the table do not depend on what is stored. -/
theorem byteAt_of_lt (hap : Apart f madt len) (hx : madt ≤ x) (hx' : x < madt + len) :
    byteAt f m count x = (m x).toNat := by
  refine byteAt_of_ne fun k hk => ?_
  have htable := hap.table k
  have hpos : 0 < frameSize := by decide
  omega

/-- One record more of a kind. -/
theorem byteAt_update (hap : Apart f madt len) (k : Kind) (x : ℕ) :
    byteAt f m (Function.update count k (count k + 1)) x =
      if f k = x then k.type else byteAt f m count x := by
  by_cases hex : ∃ j, f j = x
  · obtain ⟨j, rfl⟩ := hex
    rw [byteAt_frame hap, byteAt_frame hap]
    by_cases hj : j = k
    · subst hj
      rw [Function.update_self, if_neg (Nat.succ_ne_zero _), if_pos rfl]
    · have hne : f k ≠ f j := fun hk => hj (hap.frame_inj hk.symm)
      rw [Function.update_of_ne hj, if_neg hne]
  · have hne : ∀ j, f j ≠ x := fun j hj => hex ⟨j, hj⟩
    rw [byteAt_of_ne hne, byteAt_of_ne hne, if_neg (hne k)]

end Byte

/-! ### The loop and the walk -/

/-- A state of the loop and a walk go together on the bytes that are still to be read. -/
structure Tracks (f : Kind → ℕ) (m : Mem) (bytes : Set ℕ) (p : ℕ × State) (w : Walk) : Prop where
  offset : p.1 = w.offset
  frame : ∀ k, frame p.2.smp k = f k
  num : ∀ k, num p.2.smp k = w.count k
  mem : ∀ x ∈ bytes, (p.2.machine.mem x).toNat = byteAt f m w.count x

section Track

variable {env : Env} {f : Kind → ℕ} {m : Mem} {s : State} {p : ℕ × State} {w : Walk}
  {madt len : ℕ} {bytes bytes' : Set ℕ}

/-- The arrays are empty at first. -/
theorem tracks_allocArrays (hap : Apart f madt len) (hsmp : s.smp = SmpInfo.initial)
    (hf : ∀ k : Kind, s.machine.frames (s.machine.next + k.order) = some (f k))
    (hbytes : ∀ x ∈ bytes, madt ≤ x ∧ x ≤ madt + len) :
    Tracks f s.machine.mem bytes (0, allocArrays s) ⟨0, fun _ => 0⟩ := by
  rw [allocArrays_eq hsmp hf]
  refine ⟨rfl, fun k => ?_, fun k => ?_, fun x hx => ?_⟩
  · cases k <;> rfl
  · cases k <;> rfl
  · by_cases hex : ∃ k, f k = x
    · obtain ⟨k, rfl⟩ := hex
      rw [byteAt_frame hap, if_pos rfl]
      have hzero : ∀ {m : Mem} {a x : ℕ}, m x = 0 → fill m a 0 frameSize x = 0 := by
        intro m a x hx
        rw [fill]
        split_ifs
        · rfl
        · exact hx
      have hself : ∀ {m : Mem} {a : ℕ}, fill m a 0 frameSize a = 0 :=
        fun {m a} => fill_of_mem ⟨le_rfl, Nat.lt_add_of_pos_right (by decide)⟩
      cases k
      · exact congrArg BitVec.toNat (hzero (hzero (hzero (hzero hself))))
      · exact congrArg BitVec.toNat (hzero (hzero (hzero hself)))
      · exact congrArg BitVec.toNat (hzero (hzero hself))
      · exact congrArg BitVec.toNat (hzero hself)
      · exact congrArg BitVec.toNat hself
    · have hne : ∀ k, f k ≠ x := fun k hk => hex ⟨k, hk⟩
      have hout : ∀ k, x < f k ∨ f k + frameSize ≤ x := fun k => by
        have htable := hap.table k
        have hk := hne k
        have hx' := hbytes x hx
        omega
      rw [byteAt_of_ne hne]
      simp only
      rw [fill_of_notMem (hout .nmi), fill_of_notMem (hout .nmiSource), fill_of_notMem (hout .iso),
        fill_of_notMem (hout .lapic), fill_of_notMem (hout .ioApic)]

/-- A byte of the table that is still to be read is as it was. -/
theorem Tracks.mem_eq (ht : Tracks f m bytes p w) (hap : Apart f madt len) {x : ℕ}
    (hx : x ∈ bytes) (hle : madt ≤ x) (hlt : x < madt + len) : p.2.machine.mem x = m x :=
  BitVec.eq_of_toNat_eq ((ht.mem x hx).trans (byteAt_of_lt hap hle hlt))

/-- The type of the record is the same for both. -/
theorem Tracks.ofType_eq (ht : Tracks f m bytes p w) (hap : Apart f madt len)
    (hreads : w.reads m madt ⊆ bytes) (hgo : madtRecordsOffset + w.offset < len) :
    Kind.ofType (p.2.machine.mem (madt + madtRecordsOffset + p.1)).toNat = w.kind m madt := by
  have hheader : madt + madtRecordsOffset + w.offset ∈ bytes := hreads (.inl rfl)
  rw [Walk.kind, Walk.header, ht.offset, ht.mem_eq hap hheader (by omega) (by omega)]

/-- A record lies inside the frame if there is room for one more. -/
theorem Tracks.inside_iff (ht : Tracks f m bytes p w) (hap : Apart f madt len)
    (hreads : w.reads m madt ⊆ bytes) (hgo : madtRecordsOffset + w.offset < len) :
    Inside f madt p ↔
      ∀ k, w.kind m madt = some k → k.layout.size * (w.count k + 1) ≤ frameSize := by
  rw [Inside, ht.ofType_eq hap hreads hgo]
  refine forall₂_congr fun k hk => ?_
  rw [ht.frame k, ht.num k, Nat.mul_succ]
  omega

/-- The address of an I/O APIC is the same for both if it is in the table. -/
theorem Tracks.ioApicAddr_eq (ht : Tracks f m bytes p w)
    (hap : Apart f madt (load m (madt + 4) 4)) (hreads : w.reads m madt ⊆ bytes)
    (hk : w.kind m madt = some .ioApic)
    (hle : w.header madt + 8 ≤ madt + load m (madt + 4) 4) :
    (ioApicLayout.read p.2.machine.mem (madt + madtRecordsOffset + p.1)).ioApicAddr.toNat =
      w.ioApicAddr m madt := by
  have hlt : load p.2.machine.mem (w.header madt + 4) 4 < 2 ^ 32 := load_lt _ _ 4
  have haddr : (ioApicLayout.read p.2.machine.mem (w.header madt)).ioApicAddr.toNat =
      load p.2.machine.mem (w.header madt + 4) 4 := Nat.mod_eq_of_lt hlt
  have hheader : madt ≤ w.header madt := by
    rw [Walk.header, Nat.add_assoc]
    exact Nat.le_add_right _ _
  rw [ht.offset]
  refine haddr.trans (load_congr fun x hx hx' => ?_)
  exact ht.mem_eq hap (hreads (.inr (.inr ⟨hk, hx, by omega, by omega⟩))) (by omega) (by omega)

/-- What a round does to the arrays when it stores a record. -/
theorem Tracks.round_some (env : Env) (ht : Tracks f m bytes p w) (hap : Apart f madt len)
    (hreads : w.reads m madt ⊆ bytes) (hgo : madtRecordsOffset + w.offset < len) {k : Kind}
    (hk : w.kind m madt = some k) (hfits : k.layout.size * (w.count k + 1) ≤ frameSize)
    (hsub : bytes' ⊆ bytes) (hbytes : ∀ x ∈ bytes', madt ≤ x ∧ x ≤ madt + len)
    (hspares : k = .ioApic → env.Spares (ioApicLayout.read p.2.machine.mem
      (madt + madtRecordsOffset + p.1)).ioApicAddr.toNat bytes') :
    (Madt.round env madt p).2.smp = bump p.2.smp k ∧
      ∀ x ∈ bytes', ((Madt.round env madt p).2.machine.mem x).toNat =
        if f k = x then k.type else byteAt f m w.count x := by
  have htype := (ht.ofType_eq hap hreads hgo).trans hk
  obtain ⟨hsmp, hmem⟩ := parseRecord_of_some env htype hspares
  refine ⟨hsmp, fun x hx => ?_⟩
  have happ : (Madt.round env madt p).2.machine.mem x = move p.2.machine.mem
      (f k + k.layout.size * w.count k) (madt + madtRecordsOffset + p.1) k.layout.size x := by
    rw [← ht.frame k, ← ht.num k]
    exact hmem x hx
  have hsize : 0 < k.layout.size := by cases k <;> decide
  rw [Nat.mul_succ] at hfits
  by_cases hfx : f k = x
  · subst hfx
    rw [happ, if_pos rfl]
    by_cases hzero : w.count k = 0
    · -- the first record of the array brings its type
      have hfirst : move p.2.machine.mem (f k) (madt + madtRecordsOffset + p.1) k.layout.size
          (f k + 0) = p.2.machine.mem (madt + madtRecordsOffset + p.1 + 0) := move_add hsize
      rw [hzero, Nat.mul_zero]
      exact (congrArg BitVec.toNat hfirst).trans (Kind.type_eq_of_ofType htype)
    · have hpos : 0 < k.layout.size * w.count k := Nat.mul_pos hsize (Nat.pos_of_ne_zero hzero)
      rw [move_of_notMem (by omega), ht.mem _ (hsub hx), byteAt_frame hap, if_neg hzero]
  · have htable := hap.table k
    have hx' := hbytes x hx
    rw [happ, if_neg hfx, move_of_notMem (by omega), ht.mem x (hsub hx)]

/-- A round keeps them together. -/
theorem Tracks.round (env : Env) (ht : Tracks f m bytes p w) (hap : Apart f madt len)
    (hreads : w.reads m madt ⊆ bytes) (hgo : madtRecordsOffset + w.offset < len)
    (hfits : ∀ k, w.kind m madt = some k → k.layout.size * (w.count k + 1) ≤ frameSize)
    (hsub : bytes' ⊆ bytes) (hbytes : ∀ x ∈ bytes', madt ≤ x ∧ x ≤ madt + len)
    (hspares : w.kind m madt = some .ioApic → env.Spares (ioApicLayout.read p.2.machine.mem
      (madt + madtRecordsOffset + p.1)).ioApicAddr.toNat bytes') :
    Tracks f m bytes' (round env madt p) (w.next f m madt) := by
  have hoffset : (Madt.round env madt p).1 = (w.next f m madt).offset := by
    have hlength := ht.mem (w.header madt + 1) (hreads (.inr (.inl rfl)))
    rw [Walk.next, ← hlength, Madt.round, ht.offset, Walk.header]
  cases hk : w.kind m madt with
  | none =>
    obtain ⟨addr, hparse⟩ := parseRecord_of_none env ((ht.ofType_eq hap hreads hgo).trans hk)
    have hcount : (w.next f m madt).count = w.count := by
      rw [Walk.next, Walk.stored, hk, Option.elim_none]
    have hround : (Madt.round env madt p).2 = _ := hparse
    refine ⟨hoffset, fun j => ?_, fun j => ?_, fun x hx => ?_⟩
    all_goals rw [hround]
    · rw [← ht.frame j]
      cases j <;> rfl
    · rw [hcount, ← ht.num j]
      cases j <;> rfl
    · rw [hcount]
      exact ht.mem x (hsub hx)
  | some k =>
    obtain ⟨hsmp, hmem⟩ := ht.round_some env hap hreads hgo hk (hfits k hk) hsub hbytes
      fun hio => hspares (hk.trans (congrArg some hio))
    have hcount : (w.next f m madt).count = Function.update w.count k (w.count k + 1) := by
      rw [Walk.next, Walk.stored, hk, Option.elim_some]
    refine ⟨hoffset, fun j => ?_, fun j => ?_, fun x hx => ?_⟩
    · rw [hsmp, frame_bump, ht.frame j]
    · rw [hsmp, hcount]
      by_cases hj : j = k
      · rw [hj, num_bump_self, Function.update_self, ht.num k]
      · rw [num_bump_of_ne _ hj, Function.update_of_ne hj, ht.num j]
    · rw [hmem x hx, hcount, byteAt_update hap]

end Track

/-! ### Walks that stop -/

section Walk

variable {f : Kind → ℕ} {m : Mem} {w : Walk} {madt x : ℕ} {count count' : Kind → ℕ}

/-- A byte that is zero was zero before. -/
theorem byteAt_eq_zero_of_le (hle : ∀ k, count k ≤ count' k) (h : byteAt f m count' x = 0) :
    byteAt f m count x = 0 := by
  rw [byteAt] at h ⊢
  cases hfind : [Kind.ioApic, .lapic, .iso, .nmiSource, .nmi].find? fun k => f k = x with
  | none =>
    rw [hfind] at h
    exact h
  | some k =>
    rw [hfind, Option.elim_some] at h
    rw [Option.elim_some]
    by_cases hcount : count k = 0
    · rw [if_pos hcount]
    · have hlater : count' k ≠ 0 := fun hzero => hcount (Nat.eq_zero_of_le_zero (hzero ▸ hle k))
      rw [if_neg hlater] at h
      rw [if_neg hcount, h]

/-- Only whether there are records matters. -/
theorem byteAt_congr (h : ∀ k, count k = 0 ↔ count' k = 0) :
    byteAt f m count x = byteAt f m count' x := by
  simp only [byteAt, h]

theorem Walk.le_stored (w : Walk) (m : Mem) (madt : ℕ) (j : Kind) :
    w.count j ≤ w.stored m madt j := by
  rw [stored]
  cases w.kind m madt with
  | none => exact le_rfl
  | some k =>
    rw [Option.elim_some]
    by_cases hj : j = k
    · rw [hj, Function.update_self]
      exact Nat.le_succ _
    · rw [Function.update_of_ne hj]

theorem Walk.header_next (h : byteAt f m w.count (w.header madt + 1) = 0) :
    (w.next f m madt).header madt = w.header madt := by
  rw [header, header, next, h, Nat.add_zero]

/-- A walk that stops at a header stays there. -/
theorem Walk.stops (h : byteAt f m (w.stored m madt) (w.header madt + 1) = 0) :
    (w.next f m madt).offset = w.offset ∧
      byteAt f m ((w.next f m madt).stored m madt) ((w.next f m madt).header madt + 1) = 0 := by
  have hzero := byteAt_eq_zero_of_le (w.le_stored m madt) h
  have hheader := header_next hzero
  refine ⟨by rw [next, hzero, Nat.add_zero], ?_⟩
  rw [hheader, ← h]
  refine byteAt_congr fun j => ?_
  have hkind : (w.next f m madt).kind m madt = w.kind m madt := by rw [kind, hheader, kind]
  have hcount : (w.next f m madt).count = w.stored m madt := rfl
  rw [stored, hkind, hcount, stored]
  cases w.kind m madt with
  | none => rfl
  | some k =>
    simp only [Option.elim_some]
    by_cases hj : j = k
    · rw [hj, Function.update_self, Function.update_self]
      exact iff_of_false (Nat.succ_ne_zero _) (Nat.succ_ne_zero _)
    · rw [Function.update_of_ne hj]

/-- If the walk stops at a header, it reads headers forever. -/
theorem walks_go_of_stop {len : ℤ} {n : ℕ} (hgo : Goes len (walks f m madt n).offset)
    (h : byteAt f m ((walks f m madt n).stored m madt) ((walks f m madt n).header madt + 1) = 0)
    (i : ℕ) : Goes len (walks f m madt i).offset := by
  have hstay : ∀ d, (walks f m madt (n + d)).offset = (walks f m madt n).offset ∧
      byteAt f m ((walks f m madt (n + d)).stored m madt)
        ((walks f m madt (n + d)).header madt + 1) = 0 := by
    intro d
    induction d with
    | zero => exact ⟨rfl, h⟩
    | succ d ih =>
      rw [← Nat.add_assoc, walks_succ]
      obtain ⟨hoffset, hstop⟩ := Walk.stops ih.2
      exact ⟨hoffset.trans ih.1, hstop⟩
  refine hgo.mono ?_
  calc (walks f m madt i).offset ≤ (walks f m madt (n + i)).offset :=
        walks_offset_mono f m madt (Nat.le_add_left i n)
    _ = (walks f m madt n).offset := (hstay i).1

/-- If the walk stops at no header, it leaves the table. -/
theorem walks_leave {len : ℤ} (h : ∀ n, Goes len (walks f m madt n).offset →
      byteAt f m ((walks f m madt n).stored m madt) ((walks f m madt n).header madt + 1) ≠ 0) :
    ∃ n, ¬ Goes len (walks f m madt n).offset := by
  -- at a length byte that is still zero the walk stays for one round
  have hends : Loop.Ends (fun w : Walk => Goes len w.offset) (Walk.next f m madt)
      ⟨0, fun _ => 0⟩ := by
    refine Loop.ends_of_measure (fun w => 2 * w.offset +
      if byteAt f m w.count (w.header madt + 1) = 0 then 0 else 1) (2 * len.toNat + 2) ?_ ?_
    · intro w hgo
      rw [Goes] at hgo
      split_ifs <;> omega
    · intro n hgo
      have hnext := walks_succ f m madt n
      have hstop := h n hgo
      rw [walks, walks] at hnext
      rw [hnext]
      rw [walks] at hstop
      generalize (Walk.next f m madt)^[n] ⟨0, fun _ => 0⟩ = w at hstop
      have hoffset : (w.next f m madt).offset =
        w.offset + byteAt f m w.count (w.header madt + 1) := rfl
      by_cases hzero : byteAt f m w.count (w.header madt + 1) = 0
      · have hafter :
            byteAt f m (w.next f m madt).count ((w.next f m madt).header madt + 1) ≠ 0 := by
          rw [Walk.header_next hzero]
          exact hstop
        simp only [if_pos hzero, if_neg hafter]
        omega
      · simp only [if_neg hzero]
        omega
  exact hends

end Walk

/-! ### Robust tables -/

section Robust

variable {env : Env} {f : Kind → ℕ} {s : State} {madt : ℕ}

theorem Goes.lt {m : Mem} {i : ℕ} (h : Goes (madtLen m madt) i) :
    madtRecordsOffset + i < load m (madt + 4) 4 := by
  have hlt : load m (madt + 4) 4 < 2 ^ 32 := load_lt m (madt + 4) 4
  rw [Goes, madtLen, int32, Int.bmod_def] at h
  omega

section Later

variable {m : Mem} {n x : ℕ}

theorem later_succ_subset (f : Kind → ℕ) (m : Mem) (madt n : ℕ) :
    later f m madt (n + 1) ⊆ later f m madt n := by
  rintro x ⟨j, hj, hx⟩
  exact ⟨j, Nat.le_of_succ_le hj, hx⟩

theorem reads_subset_later (hgo : Goes (madtLen m madt) (walks f m madt n).offset) :
    (walks f m madt n).reads m madt ⊆ later f m madt n :=
  fun _ hx => ⟨n, le_rfl, hgo, hx⟩

/-- What is read lies in the table, or right behind it. -/
theorem le_of_mem_later (hx : x ∈ later f m madt n) :
    madt ≤ x ∧ x ≤ madt + load m (madt + 4) 4 := by
  obtain ⟨j, -, hgo, hread⟩ := hx
  have hlt := hgo.lt
  have hheader : (walks f m madt j).header madt =
      madt + madtRecordsOffset + (walks f m madt j).offset := rfl
  rcases hread with rfl | rfl | ⟨-, hge, -, hin⟩
  · omega
  · omega
  · omega

/-- Registering an I/O APIC misses what is still to be read. -/
theorem Undisturbed.spares {p : ℕ × State} (hund : Undisturbed env f m madt)
    (hap : Apart f madt (load m (madt + 4) 4))
    (hgo : Goes (madtLen m madt) (walks f m madt n).offset)
    (ht : Tracks f m (later f m madt n) p (walks f m madt n))
    (hk : (walks f m madt n).kind m madt = some .ioApic) :
    env.Spares (ioApicLayout.read p.2.machine.mem
      (madt + madtRecordsOffset + p.1)).ioApicAddr.toNat (later f m madt (n + 1)) := by
  by_cases hnext : Goes (madtLen m madt) (walks f m madt (n + 1)).offset
  · obtain ⟨hle, hspares⟩ := hund n hk hnext
    rw [ht.ioApicAddr_eq hap (reads_subset_later hgo) hk hle]
    exact hspares
  · refine .inr fun x _ hx => ?_
    obtain ⟨j, hj, hgoj, -⟩ := hx
    exact absurd (hgoj.mono (walks_offset_mono f m madt hj)) hnext

/-- A round keeps the loop and the walk together if the record fits. -/
theorem Tracks.succ {p : ℕ × State} (hund : Undisturbed env f m madt)
    (hap : Apart f madt (load m (madt + 4) 4))
    (hgo : Goes (madtLen m madt) (walks f m madt n).offset)
    (ht : Tracks f m (later f m madt n) p (walks f m madt n))
    (hfits : ∀ k, (walks f m madt n).kind m madt = some k →
      k.layout.size * ((walks f m madt n).count k + 1) ≤ frameSize) :
    Tracks f m (later f m madt (n + 1)) (Madt.round env madt p) (walks f m madt (n + 1)) := by
  rw [walks_succ]
  exact ht.round env hap (reads_subset_later hgo) hgo.lt hfits (later_succ_subset f m madt n)
    (fun x hx => le_of_mem_later hx) (hund.spares hap hgo ht)

end Later

/-- The loop and the walk go together while the records fit. -/
theorem tracks_rounds (hap : Apart f madt (load s.machine.mem (madt + 4) 4))
    (hsmp : s.smp = SmpInfo.initial)
    (hf : ∀ k : Kind, s.machine.frames (s.machine.next + k.order) = some (f k))
    (hund : Undisturbed env f s.machine.mem madt) {n : ℕ}
    (h : ∀ i < n, Tracks f s.machine.mem (later f s.machine.mem madt i) (rounds env madt s i)
        (walks f s.machine.mem madt i) →
      Goes (madtLen s.machine.mem madt) (walks f s.machine.mem madt i).offset ∧
        ∀ k, (walks f s.machine.mem madt i).kind s.machine.mem madt = some k →
          k.layout.size * ((walks f s.machine.mem madt i).count k + 1) ≤ frameSize) :
    Tracks f s.machine.mem (later f s.machine.mem madt n) (rounds env madt s n)
      (walks f s.machine.mem madt n) := by
  induction n with
  | zero => exact tracks_allocArrays hap hsmp hf fun x hx => le_of_mem_later hx
  | succ n ih =>
    have ht := ih fun i hi => h i (Nat.lt_succ_of_lt hi)
    obtain ⟨hgo, hfits⟩ := h n (Nat.lt_succ_self n) ht
    rw [rounds_succ]
    exact ht.succ hund hap hgo hfits

/-- The offsets are the same as long as the records fit. -/
theorem Tracks.goes_iff {m : Mem} {bytes : Set ℕ} {p : ℕ × State} {w : Walk} {len : ℤ}
    (ht : Tracks f m bytes p w) : Goes len p.1 ↔ Goes len w.offset := by
  rw [ht.offset]

/-- **The tables for which `ParseMadt` is robust.** Let registering the I/O APICs miss what the walk
still reads. `ParseMadt` ends, with every record inside the frame of its array and its offset an
`int`, if and only if at every header that the walk reaches the length byte is not zero once the
record is stored, there is room for the record in its array, and the next offset is an `int`. -/
theorem parseMadt_robust_iff (hap : Apart f madt (load s.machine.mem (madt + 4) 4))
    (hsmp : s.smp = SmpInfo.initial)
    (hf : ∀ k : Kind, s.machine.frames (s.machine.next + k.order) = some (f k))
    (hund : Undisturbed env f s.machine.mem madt) :
    Robust env f madt s ↔
      ∀ n, Goes (madtLen s.machine.mem madt) (walks f s.machine.mem madt n).offset →
        (walks f s.machine.mem madt n).Good f s.machine.mem madt := by
  constructor
  · intro hr
    have htracks : ∀ n, Goes (madtLen s.machine.mem madt) (walks f s.machine.mem madt n).offset →
        Tracks f s.machine.mem (later f s.machine.mem madt n) (rounds env madt s n)
          (walks f s.machine.mem madt n) := by
      intro n hgo
      refine tracks_rounds hap hsmp hf hund fun i hi ht => ?_
      have hgoi := hgo.mono (walks_offset_mono f s.machine.mem madt hi.le)
      exact ⟨hgoi, (ht.inside_iff hap (reads_subset_later hgoi) hgoi.lt).mp
        (hr.inside i (ht.goes_iff.mpr hgoi))⟩
    intro n hgo
    have ht := htracks n hgo
    have hgo' := ht.goes_iff.mpr hgo
    have hfits := (ht.inside_iff hap (reads_subset_later hgo) hgo.lt).mp (hr.inside n hgo')
    refine ⟨fun hstop => ?_, hfits, ?_⟩
    · obtain ⟨i, hi⟩ := exists_parseMadt_iff.mp hr.ends
      have hgoi := walks_go_of_stop hgo hstop i
      exact hi ((htracks i hgoi).goes_iff.mpr hgoi)
    · have hint := hr.int n hgo'
      rw [rounds_succ, (ht.succ hund hap hgo hfits).offset, walks_succ] at hint
      exact hint
  · intro hgood
    have htracks : ∀ n, Goes (madtLen s.machine.mem madt) (rounds env madt s n).1 →
        Tracks f s.machine.mem (later f s.machine.mem madt n) (rounds env madt s n)
          (walks f s.machine.mem madt n) := by
      intro n hgo
      refine tracks_rounds hap hsmp hf hund fun i hi ht => ?_
      have hgoi := ht.goes_iff.mp (hgo.mono (rounds_offset_mono env madt s hi.le))
      exact ⟨hgoi, (hgood i hgoi).fits⟩
    refine ⟨?_, fun n hgo => ?_, fun n hgo => ?_⟩
    · rw [exists_parseMadt_iff]
      by_contra hnot
      have hgo : ∀ n, Goes (madtLen s.machine.mem madt) (rounds env madt s n).1 :=
        fun n => by_contra fun hn => hnot ⟨n, hn⟩
      obtain ⟨n, hn⟩ := walks_leave fun n hn => (hgood n hn).length
      exact hn ((htracks n (hgo n)).goes_iff.mp (hgo n))
    · have ht := htracks n hgo
      have hgo' := ht.goes_iff.mp hgo
      exact (ht.inside_iff hap (reads_subset_later hgo') hgo'.lt).mpr (hgood n hgo').fits
    · have ht := htracks n hgo
      have hgo' := ht.goes_iff.mp hgo
      rw [rounds_succ, (ht.succ hund hap hgo' (hgood n hgo').fits).offset, walks_succ]
      exact (hgood n hgo').int

end Robust

/-- The bytes of a table with a checksum and some records. -/
def tableBytes (checksum : BitVec 8) (records : List (BitVec 8)) : List (BitVec 8) :=
  [0x41, 0x50, 0x49, 0x43] ++ (bytes 4 (madtRecordsOffset + records.length) ++
    ([0, checksum] ++ (List.replicate 34 0 ++ records)))

/-- A machine with that table at `0x1000`, and free frames. -/
def stateOfBytes (table : List (BitVec 8)) : State where
  machine := ⟨fun x => table.getD (x - 0x1000) 0, fun n => some (freeFrame n), 0⟩
  smp := SmpInfo.initial
  hal := noHal

/-- An I/O APIC at `0xFEC00000` and a local APIC. -/
def apicTable : State :=
  stateOfBytes (tableBytes 0xC5 [1, 12, 0, 0, 0, 0, 0xC0, 0xFE, 0, 0, 0, 0, 0, 8, 3, 7, 1, 0, 0, 0])

/-- The walk reads two headers. -/
theorem le_one_of_goes {n : ℕ} (hgo : Goes (madtLen apicTable.machine.mem 0x1000)
    (walks framesOf apicTable.machine.mem 0x1000 n).offset) : n ≤ 1 := by
  have hlen : load apicTable.machine.mem (0x1000 + 4) 4 = 64 := by decide +kernel
  have hlast : (walks framesOf apicTable.machine.mem 0x1000 2).offset = 20 := by decide +kernel
  by_contra hn
  have hge := walks_offset_mono framesOf apicTable.machine.mem 0x1000
    (show 2 ≤ n by omega)
  simp only [hlast] at hge
  have hlt := hgo.lt
  rw [hlen, madtRecordsOffset] at hlt
  omega

theorem parseMadt_robust_two :
    Acpi.accepts apicTable.machine.mem (fun i => [0x41, 0x50, 0x49, 0x43].getD i 0) 0x1000 =
        true ∧
      Robust sampleEnv framesOf 0x1000 apicTable := by
  refine ⟨by decide +kernel, ?_⟩
  have hlen : load apicTable.machine.mem (0x1000 + 4) 4 = 64 := by decide +kernel
  have hund : Undisturbed sampleEnv framesOf apicTable.machine.mem 0x1000 := by
    intro n _ hgo
    obtain rfl : n = 0 := by
      have hle := le_one_of_goes hgo
      omega
    exact ⟨by decide +kernel, .inl (by decide +kernel)⟩
  refine (parseMadt_robust_iff (framesOf_apart (hlen ▸ by decide)) rfl (fun k => rfl) hund).mpr ?_
  intro n hgo
  obtain rfl | rfl : n = 0 ∨ n = 1 := by
    have hle := le_one_of_goes hgo
    omega
  · refine ⟨by decide +kernel, fun k hk => ?_, by decide +kernel⟩
    obtain rfl : Kind.ioApic = k := Option.some.inj hk
    decide +kernel
  · refine ⟨by decide +kernel, fun k hk => ?_, by decide +kernel⟩
    obtain rfl : Kind.lapic = k := Option.some.inj hk
    decide +kernel

/-- A record of an unknown type with length zero. -/
def endlessTable : State := stateOfBytes (tableBytes 0xAC [9, 0])

/-- The checksum of the table is valid, and `ParseMadt` does not end. -/
theorem parseMadt_endless :
    Acpi.accepts endlessTable.machine.mem (fun i => [0x41, 0x50, 0x49, 0x43].getD i 0) 0x1000 =
        true ∧
      ∀ fuel, parseMadt sampleEnv fuel 0x1000 endlessTable = none := by
  refine ⟨by decide +kernel, fun fuel => ?_⟩
  have hlen : (allocArrays endlessTable).machine.mem (0x1000 + madtRecordsOffset + 0 + 1) = 0 := by
    decide +kernel
  have htype : ((allocArrays endlessTable).machine.mem (0x1000 + madtRecordsOffset + 0)).toNat =
      9 := by
    decide +kernel
  have hround : round sampleEnv 0x1000 (0, allocArrays endlessTable) =
      (0, allocArrays endlessTable) := by
    have hparse : parseRecord sampleEnv (0x1000 + madtRecordsOffset + 0)
        (allocArrays endlessTable) = allocArrays endlessTable := by
      rw [parseRecord, htype]
      rfl
    exact Prod.ext (congrArg (fun b : BitVec 8 => 0 + b.toNat) hlen) hparse
  by_contra hsome
  obtain ⟨s', hs'⟩ := Option.ne_none_iff_exists'.mp hsome
  obtain ⟨n, hn⟩ := exists_parseMadt_iff.mp ⟨fuel, s', hs'⟩
  have hstay : rounds sampleEnv 0x1000 endlessTable n = (0, allocArrays endlessTable) :=
    Function.iterate_fixed hround n
  rw [hstay] at hn
  exact hn (by decide +kernel)

/-! ### A store into the table -/

/-- An I/O APIC whose address is that of the next record, which is a local APIC. -/
def overwrittenTable : State :=
  stateOfBytes (tableBytes 0x7E [1, 12, 0, 0, 0x38, 0x10, 0, 0, 0, 0, 0, 0,
    0, 8, 3, 7, 0, 0, 0xC0, 0xFE])

/-- The second header is that of an I/O APIC, and has length zero. -/
structure Overwritten (p : ℕ × State) : Prop where
  offset : p.1 = 12
  frame : p.2.smp.ioApics = 0x10000
  type : (p.2.machine.mem 0x1038).toNat = 1
  length : (p.2.machine.mem 0x1039).toNat = 0
  addr : load p.2.machine.mem 0x103C 4 = 0xFEC00000

theorem Overwritten.round {p : ℕ × State} (h : Overwritten p) :
    Overwritten (round sampleEnv 0x1000 p) := by
  have hrecord : 0x1000 + madtRecordsOffset + p.1 = 0x1038 := by rw [h.offset]; rfl
  have haddr : (ioApicLayout.read p.2.machine.mem 0x1038).ioApicAddr.toNat = 0xFEC00000 :=
    congrArg (· % 2 ^ 32) h.addr
  have hcontroller : sampleEnv.controller
      (ioApicLayout.read p.2.machine.mem 0x1038).ioApicAddr.toNat = true := by
    rw [haddr]
    decide
  have hparse : parseRecord sampleEnv 0x1038 p.2 = { appended p.2 .ioApic 0x1038 with
      hal := (appended p.2 .ioApic 0x1038).hal.registerIoapic
        ((appended p.2 .ioApic 0x1038).sources sampleEnv)
        (ioApicLayout.read p.2.machine.mem 0x1038) } := by
    rw [parseRecord_ioApic h.type, State.registerIoapic_of_controller hcontroller]
  -- the record is appended behind `0x10000`
  have hmem : ∀ x < 0x10000,
      (Madt.round sampleEnv 0x1000 p).2.machine.mem x = p.2.machine.mem x := by
    intro x hx
    rw [Madt.round, hrecord, hparse]
    refine move_of_notMem (.inl (hx.trans_le ?_))
    exact h.frame.ge.trans (Nat.le_add_right _ _)
  refine ⟨?_, ?_, ?_, ?_, ?_⟩
  · rw [Madt.round, hrecord, h.offset, h.length]
  · rw [Madt.round, hrecord, hparse]
    exact h.frame
  · rw [hmem _ (by decide), h.type]
  · rw [hmem _ (by decide), h.length]
  · rw [load_congr fun x _ hx => hmem x (by omega), h.addr]

/-- The checksum of the table is valid and its length bytes are not zero, but `register_ioapic`
stores 1 over the second header, and `ParseMadt` does not end. -/
theorem parseMadt_endless_of_store :
    Acpi.accepts overwrittenTable.machine.mem (fun i => [0x41, 0x50, 0x49, 0x43].getD i 0) 0x1000 =
        true ∧
      ∀ fuel, parseMadt sampleEnv fuel 0x1000 overwrittenTable = none := by
  refine ⟨by decide +kernel, fun fuel => ?_⟩
  have hfirst : Overwritten (rounds sampleEnv 0x1000 overwrittenTable 1) :=
    ⟨by decide +kernel, by decide +kernel, by decide +kernel, by decide +kernel,
      by decide +kernel⟩
  have hall : ∀ n, Overwritten (rounds sampleEnv 0x1000 overwrittenTable (n + 1)) := by
    intro n
    induction n with
    | zero => exact hfirst
    | succ n ih =>
      rw [rounds_succ]
      exact ih.round
  have hlen : madtLen overwrittenTable.machine.mem 0x1000 = 64 := by decide +kernel
  by_contra hsome
  obtain ⟨s', hs'⟩ := Option.ne_none_iff_exists'.mp hsome
  obtain ⟨n, hn⟩ := exists_parseMadt_iff.mp ⟨fuel, s', hs'⟩
  refine hn (Goes.mono (rounds_offset_mono sampleEnv 0x1000 overwrittenTable (Nat.le_succ n)) ?_)
  simp only [(hall n).offset, hlen]
  decide

end Vardar.Madt
