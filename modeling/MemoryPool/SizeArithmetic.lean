import MemoryPool.HeapBalance

/-!
# MemoryPool.SizeArithmetic

What the size checks of `memory_pool_create` and `grow_pool` let through.

`slot_stride` saturates at `SIZE_MAX` where the guard word or the rounding would wrap, and leaves
it to the product guard of its caller to reject that value. A product with `SIZE_MAX` overflows
for every count but `1`, so one block of such a size gets past `memory_pool_create`'s guard.

* `SoundGeometry`: everything the slots of a region rely on.
* `createRequest_saturated`: the sizes that get through.
* `sizes_sound_iff`: for all block sizes and block counts.
-/

namespace MemoryPool

open ByteMem

/-- The bytes `memory_pool_create` asks `::operator new` for, or `none` if one of its checks
returns null before. -/
def createRequest (B : Build) (blockSize blockCount : Nat) : Option Nat :=
  if !isValidBlockSize B blockSize then none
  else if blockCount = 0 then none
  else if wouldOverflowProduct B (slotStride B blockSize) blockCount then none
  else some (B.mul (slotStride B blockSize) blockCount)

/-- `memory_pool_create` from the first `::operator new` on. -/
def createBacked (B : Build) (env : Env) (w : World) (blockSize blockCount totalBytes : Nat) :
    Option PoolStruct × World :=
  match w.operatorNew B .backing totalBytes B.poolAlignment env.backing with
  | (none, w) => (none, w)
  | (some backing, w) =>
    match w.operatorNew B .poolStruct B.sizeofMemoryPool B.ptrBytes env.object with
    | (none, w) => (none, w.releaseBacking backing)
    | (some addr, w) =>
      (some ⟨addr, backing, ⟨backing, 0⟩, blockSize, blockCount, B.poolAlignment, [], 0, 0, false⟩,
        { w with mem := initializeFreeList B w.mem backing blockSize blockCount })

theorem memoryPoolCreate_eq (B : Build) (env : Env) (w : World) (blockSize blockCount : Nat) :
    memoryPoolCreate B env w blockSize blockCount =
      (createRequest B blockSize blockCount).elim (none, w)
        (createBacked B env w blockSize blockCount) := by
  unfold memoryPoolCreate createRequest
  split
  · rfl
  · split
    · rfl
    · simp only []
      split <;> rfl

/-- The geometry of `count` slots in a region of `bytes` bytes. The writes and reads of a slot's
link, payload and guard word stay inside its stride. -/
structure SoundGeometry (B : Build) (blockSize count bytes : Nat) : Prop where
  stride_align : B.poolAlignment ∣ slotStride B blockSize
  stride_ge : blockSize ≤ slotStride B blockSize
  stride_guard : B.hardening = true → blockSize + guardBytes ≤ slotStride B blockSize
  exact : B.mul (slotStride B blockSize) count = slotStride B blockSize * count
  bytes_eq : bytes = slotStride B blockSize * count
  apart : ∀ i j, i < j → j < count →
    i * slotStride B blockSize + slotStride B blockSize ≤ j * slotStride B blockSize
  placed : ∀ base, B.poolAlignment ∣ base → base + bytes ≤ B.modulus → ∀ i < count,
    B.add base (B.mul i (slotStride B blockSize)) = base + i * slotStride B blockSize ∧
    B.poolAlignment ∣ base + i * slotStride B blockSize ∧
    base + i * slotStride B blockSize + slotStride B blockSize ≤ base + bytes
  writes : ∀ m slot x, x < slot ∨ slot + slotStride B blockSize ≤ x →
    (∀ next, writeNext B m slot next x = m x) ∧
    (B.hardening = true → poisonPayload B m slot blockSize x = m x ∧
      ∀ value, writeGuard m slot blockSize value x = m x)
  reads : ∀ m m' slot, SameOn m m' slot (slotStride B blockSize) →
    revealNext B m' slot = revealNext B m slot ∧
    (B.hardening = true → readGuard m' slot blockSize = readGuard m slot blockSize ∧
      payloadIsPoison B m' slot blockSize = payloadIsPoison B m slot blockSize)

theorem SoundGeometry.of_dims {B : Build} {blockSize count : Nat} (d : SlotDims B blockSize)
    (hdvd : B.poolAlignment ∣ slotStride B blockSize)
    (hfit : slotStride B blockSize * count < B.modulus) :
    SoundGeometry B blockSize count (slotStride B blockSize * count) := by
  have hlink := d.link
  have hblock := d.block
  refine ⟨hdvd, d.block, d.guard, Build.mul_eq hfit, rfl, ?_, ?_, ?_, ?_⟩
  · intro i j hij _
    have hle := Nat.mul_le_mul_right (slotStride B blockSize) (show i + 1 ≤ j from hij)
    rwa [Nat.add_mul, Nat.one_mul] at hle
  · intro base hal hbase i hi
    have hin := slotsOf_inside (mem_slotsOf.mpr ⟨i, hi, rfl⟩ :
      base + i * slotStride B blockSize ∈ slotsOf (slotStride B blockSize) base count)
    exact ⟨(slotAddr_lt d hi hbase).1, Nat.dvd_add hal (hdvd.mul_left i), hin.2⟩
  · intro m slot x hx
    refine ⟨fun next => writeNext_outside (by omega), fun hh => ?_⟩
    have hguard := d.guard hh
    exact ⟨poisonPayload_outside (by omega), fun value => writeGuard_outside (by omega)⟩
  · intro m m' slot h
    refine ⟨revealNext_same d h, fun hh => ?_⟩
    have hguard := d.guard hh
    refine ⟨readGuard_congr (h.mono (by omega) (by omega)), ?_⟩
    have hpay : SameOn m m' slot blockSize := h.mono (le_refl _) (by omega)
    have hpay' : SameOn m' m slot blockSize := fun x hl hu => (hpay x hl hu).symm
    rw [Bool.eq_iff_iff, payloadIsPoison_iff, payloadIsPoison_iff]
    exact ⟨fun hp => hp.congr hpay', fun hp => hp.congr hpay⟩

/-! ## Saturation -/

/-- `SIZE_MAX` is odd. -/
theorem Build.sizeMax_unaligned {B : Build} : ¬ B.poolAlignment ∣ B.sizeMax := by
  intro h
  have h2 : 2 ∣ B.poolAlignment := by
    refine dvd_pow_self 2 ?_
    intro h0
    have hge := B.align_ge
    have hwide := B.ptr_wide
    rw [h0] at hge
    omega
  have hmod : 2 ∣ B.modulus := by
    rw [Build.modulus_eq]
    refine dvd_pow_self 2 ?_
    have hwide := B.ptr_wide
    omega
  have hpos := B.modulus_pos
  have hmax := h2.trans h
  unfold Build.sizeMax at hmax
  omega

theorem slotStride_saturated_iff {B : Build} {blockSize : Nat} (hlt : blockSize < B.modulus)
    (hv : isValidBlockSize B blockSize = true) :
    slotStride B blockSize = B.sizeMax ↔
      B.hardening = true ∧ B.modulus ≤ blockSize + guardBytes + (B.poolAlignment - 1) := by
  have hdvd := (isValidBlockSize_iff.mp hv).2.2
  constructor
  · intro h
    rcases slotStride_cases B hlt with ⟨_, hs⟩ | ⟨hh, hle, _⟩ | ⟨_, _, hs⟩
    · rw [← hs, h] at hdvd
      exact absurd hdvd Build.sizeMax_unaligned
    · exact ⟨hh, hle⟩
    · have hround : B.poolAlignment ∣ roundUp B (blockSize + guardBytes) := Nat.dvd_mul_left _ _
      rw [← hs, h] at hround
      exact absurd hround Build.sizeMax_unaligned
  · rintro ⟨hh, hle⟩
    rcases slotStride_cases B hlt with ⟨hn, _⟩ | ⟨_, _, hs⟩ | ⟨_, hfit, _⟩
    · rw [hh] at hn
      cases hn
    · exact hs
    · omega

theorem createRequest_some {B : Build} {blockSize blockCount bytes : Nat}
    (h : createRequest B blockSize blockCount = some bytes) :
    isValidBlockSize B blockSize = true ∧ 0 < blockCount ∧
      slotStride B blockSize * blockCount < B.modulus ∧
      bytes = slotStride B blockSize * blockCount := by
  unfold createRequest at h
  split at h
  · cases h
  · rename_i hv
    split at h
    · cases h
    · rename_i hn
      split at h
      · cases h
      · rename_i hov
        have hfit := wouldOverflowProduct_eq_false_iff.mp (Bool.eq_false_iff.mpr hov)
        rw [Build.mul_eq hfit] at h
        exact ⟨by simpa using hv, Nat.pos_of_ne_zero hn, hfit, (Option.some.inj h).symm⟩

/-- A saturated stride passes the product guard with the count `1` alone. -/
theorem createRequest_saturated {B : Build} {blockSize blockCount bytes : Nat}
    (h : createRequest B blockSize blockCount = some bytes)
    (hsat : slotStride B blockSize = B.sizeMax) : blockCount = 1 := by
  obtain ⟨-, hn, hfit, -⟩ := createRequest_some h
  have hm := B.modulus_ge
  rw [hsat] at hfit
  by_contra hne
  have hle := Nat.mul_le_mul_left B.sizeMax (show 2 ≤ blockCount by omega)
  unfold Build.sizeMax at hle hfit
  omega

/-! ## The two callers -/

def CreateCall.blockSize : CreateCall → Nat
  | .fixed blockSize _ => blockSize
  | .dynamic blockSize _ _ => blockSize

theorem CreateCall.run_blockSize {B : Build} {env : Env} {w w' : World} {call : CreateCall}
    {p : PoolStruct} (h : call.run B env w = (some p, w')) : p.blockSize = call.blockSize := by
  cases call with
  | fixed blockSize blockCount =>
    obtain ⟨-, -, _, _, _, -, -, -, -, -, rfl, -⟩ := memoryPoolCreate_some h
    rfl
  | dynamic blockSize blockCount growthFactor =>
    obtain ⟨-, -, q, hc, rfl⟩ := memoryPoolCreateDynamic_some h
    obtain ⟨-, -, _, _, _, -, -, -, -, -, rfl, -⟩ := memoryPoolCreate_some hc
    rfl

theorem Client.run_blockSize {B : Build} {c c' : Client} {es : List Client.Event}
    (hrun : (Client.lts B).Run c es c') : c'.pool.pool.blockSize = c.pool.pool.blockSize := by
  refine hrun.invariant (I := fun d => d.pool.pool.blockSize = c.pool.pool.blockSize) ?_ rfl
  intro d e d' hd hstep
  exact (Client.Step.frame hstep).blockSize.trans hd

/-- For one block size and one block count: what `memory_pool_create` requests is sound, it
requests nothing when the stride is saturated, and neither does `grow_pool` in any state of a pool
created with these sizes. -/
structure SizesSound (B : Build) (blockSize blockCount : Nat) : Prop where
  create : ∀ bytes, createRequest B blockSize blockCount = some bytes →
    SoundGeometry B blockSize blockCount bytes
  rejected : slotStride B blockSize = B.sizeMax → createRequest B blockSize blockCount = none
  grow : ∀ env w w' (call : CreateCall) p, call.InRange B → call.blockSize = blockSize →
    call.blockCount = blockCount → call.run B env w = (some p, w') →
    ∀ es c, (Client.lts B).Run ⟨⟨w', p⟩, []⟩ es c → ∀ add, growthCount B c.pool.pool = some add →
      slotStride B blockSize ≠ B.sizeMax ∧
      SoundGeometry B blockSize add (B.mul add (slotStride B blockSize))

/-- A pool that exists has room for its stride, so growth is sound whatever the sizes. -/
theorem growth_sound {B : Build} {env : Env} {w w' : World} {call : CreateCall} {p : PoolStruct}
    (hr : call.InRange B) (hcreate : call.run B env w = (some p, w')) {es : List Client.Event}
    {c : Client} (hrun : (Client.lts B).Run ⟨⟨w', p⟩, []⟩ es c) {add : Nat}
    (hadd : growthCount B c.pool.pool = some add) :
    slotStride B call.blockSize ≠ B.sizeMax ∧
      SoundGeometry B call.blockSize add (B.mul add (slotStride B call.blockSize)) := by
  have C := CreateCall.created hr hcreate
  have L := (Client.run_layout hrun C.inv.layout).1
  have hbs : c.pool.pool.blockSize = call.blockSize :=
    (Client.run_blockSize hrun).trans (CreateCall.run_blockSize hcreate)
  obtain ⟨-, -, -, hfit⟩ := growthCount_some hadd
  rw [← hbs]
  refine ⟨fun hsat => ?_, ?_⟩
  · have hdvd := L.stride_align
    rw [hsat] at hdvd
    exact Build.sizeMax_unaligned hdvd
  · rw [Build.mul_eq hfit, Nat.mul_comm]
    rw [Nat.mul_comm] at hfit
    exact .of_dims L.dims L.stride_align hfit

/-- All block sizes and block counts, default and hardened: the sizes are sound unless the block
size is valid, adding the guard word and rounding up would wrap, and one block is asked for. -/
theorem sizes_sound_iff {B : Build} {blockSize blockCount : Nat} (hbs : blockSize < B.modulus) :
    SizesSound B blockSize blockCount ↔
      ¬ (B.hardening = true ∧ isValidBlockSize B blockSize = true ∧
        B.modulus ≤ blockSize + guardBytes + (B.poolAlignment - 1) ∧ blockCount = 1) := by
  constructor
  · rintro h ⟨hh, hv, hle, rfl⟩
    have hsat := (slotStride_saturated_iff hbs hv).mpr ⟨hh, hle⟩
    have hmax : B.sizeMax * 1 < B.modulus := by
      have hpos := B.modulus_pos
      unfold Build.sizeMax
      omega
    have hov := wouldOverflowProduct_eq_false_iff.mpr hmax
    have hreq : createRequest B blockSize 1 = some (B.mul B.sizeMax 1) := by
      unfold createRequest
      rw [hv, hsat, hov]
      rfl
    rw [h.rejected hsat] at hreq
    cases hreq
  · intro h
    -- a request with a saturated stride would be the excluded one
    have hkey : ∀ bytes, createRequest B blockSize blockCount = some bytes →
        slotStride B blockSize ≠ B.sizeMax := by
      intro bytes hreq hsat
      have hv := (createRequest_some hreq).1
      obtain ⟨hh, hle⟩ := (slotStride_saturated_iff hbs hv).mp hsat
      exact h ⟨hh, hv, hle, createRequest_saturated hreq hsat⟩
    refine ⟨?_, ?_, ?_⟩
    · intro bytes hreq
      obtain ⟨hv, -, hfit, rfl⟩ := createRequest_some hreq
      obtain ⟨hdvd, hge, hguard, -⟩ := slotStride_spec hbs hv (hkey _ hreq)
      exact .of_dims ⟨(isValidBlockSize_iff.mp hv).2.1, hge, hguard⟩ hdvd hfit
    · intro hsat
      cases hreq : createRequest B blockSize blockCount with
      | none => rfl
      | some bytes => exact absurd hsat (hkey bytes hreq)
    · rintro env w w' call p hr rfl rfl hcreate es c hrun add hadd
      exact growth_sound hr hcreate hrun hadd

theorem sizes_sound_iff_x64 : SizesSound (Build.x64 true .none) (2 ^ 64 - 32) 1 :=
  (sizes_sound_iff (by decide)).mpr (by decide)

/-- One hardened block of `SIZE_MAX - 15` bytes: `::operator new` is asked for `SIZE_MAX` bytes. -/
theorem saturated_request :
    slotStride (Build.x64 true .none) (2 ^ 64 - 16) = (Build.x64 true .none).sizeMax ∧
      (∀ env w, memoryPoolCreate (Build.x64 true .none) env w (2 ^ 64 - 16) 1 =
        createBacked (Build.x64 true .none) env w (2 ^ 64 - 16) 1 (2 ^ 64 - 1)) ∧
      ¬ SizesSound (Build.x64 true .none) (2 ^ 64 - 16) 1 := by
  have hsat : slotStride (Build.x64 true .none) (2 ^ 64 - 16) = (Build.x64 true .none).sizeMax := by
    decide
  have hreq : createRequest (Build.x64 true .none) (2 ^ 64 - 16) 1 = some (2 ^ 64 - 1) := by decide
  refine ⟨hsat, fun env w => ?_, fun h => ?_⟩
  · rw [memoryPoolCreate_eq, hreq]
    rfl
  · rw [h.rejected hsat] at hreq
    cases hreq

end MemoryPool
