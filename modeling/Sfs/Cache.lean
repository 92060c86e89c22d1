import Sfs.Io
import Sfs.Lib.Run

/-!
# Coherence of the block cache

`buf` and `buf_num` are updated separately, at about ten places of `io.c`, and
not every path leaves them in agreement: a read that ends with a whole block
past its first one leaves that block in `buf` under the number of the first,
`copy_block` never touches `buf_num`, and several error returns leave a
half-filled buffer under a number.

`IoCall.KeepsCache` is the condition on a call, and on the accesses of it that
fail, under which the agreement survives the call.  `cache_coherent_run`
carries it along any sequence of calls.
-/

namespace Sfs

open Lib

/-- A call of one of the three transfer functions. -/
inductive IoCall where
  | read (offset : Nat) (data : Mem) (size : Nat)
  | write (offset : Nat) (data : Mem) (size : Nat)
  | copy (src dest size : Nat)

namespace IoCall

/-- The device after the call. -/
def run (dev : BlockDev) : IoCall → BlockDev
  | read offset data size => (readData dev offset data size).2.2
  | write offset data size => (writeData dev offset data size).2
  | copy src dest size => (copyBlock dev src dest size).2

/-- The call asks only for bytes, or blocks, of the device. -/
def InRange (dev : BlockDev) : IoCall → Prop
  | read offset _ size | write offset _ size => offset + size ≤ dev.size
  | copy src dest size =>
    (src + size) * dev.blockSize ≤ dev.size ∧ (dest + size) * dev.blockSize ≤ dev.size

/-- What a call must meet to leave the cache coherent.  The accesses of a call
are numbered from the state before it. -/
def KeepsCache (dev : BlockDev) : IoCall → Prop
  | read offset _ size =>
    let cur := offset % dev.blockSize
    let rest := size - (dev.blockSize - cur)
    let first := if dev.bufNum = some (offset / dev.blockSize) then 0 else 1
    (first = 1 ∧ ¬ dev.Works 0 ∧ dev.bufNum = none) ∨
      ((first = 1 → dev.Works 0) ∧ (cur + size ≤ dev.blockSize ∨
        (dev.HasRange offset size ∧ rest % dev.blockSize ≠ 0 ∧
          ∀ i, i < rest / dev.blockSize + 1 → dev.Works (first + i))))
  | write offset _ size =>
    let cur := offset % dev.blockSize
    let rest := size - (dev.blockSize - cur)
    let whole := rest / dev.blockSize
    (¬ dev.Works 0 ∧ dev.bufNum = none) ∨
      (dev.Works 0 ∧ dev.Works 1 ∧ (cur + size ≤ dev.blockSize ∨
        (dev.HasRange offset size ∧ (0 < whole → dev.Works 2) ∧
          ((∀ i, i < whole → dev.Works (2 + i)) → rest % dev.blockSize ≠ 0 →
            dev.Works (2 + whole) ∧ dev.Works (3 + whole)))))
  | copy src dest size =>
    dev.bufNum = none ∨ size = 0 ∨ ∃ k, k < size ∧ (∀ i, i < 2 * k + 1 → dev.Works i) ∧
      ((k + 1 = size ∧ dev.Works (2 * k + 1) ∧
          (dev.bufNum = some (src + k) ∨ dev.bufNum = some (dest + k))) ∨
        (¬ dev.Works (2 * k + 1) ∧ src ≠ dest ∧ dev.bufNum = some (src + k)))

end IoCall

/-! ## Reads -/

/-- The rest of a read keeps the cache when it ends in a partial block and all
its reads work. -/
theorem readBlocks_coherent {dev : BlockDev} (hbs : 0 < dev.blockSize) (fuel : Nat)
    (data : Mem) (pos size bnum : Nat) (hfuel : size < fuel) (hin : dev.HasBlocks bnum size)
    (hpart : size % dev.blockSize ≠ 0) (hworks : ∀ i, i < size / dev.blockSize + 1 → dev.Works i) :
    (readBlocks fuel dev data pos size bnum).2.2.Coherent := by
  induction fuel generalizing dev data pos size bnum with
  | zero => omega
  | succ fuel ih =>
    have hpos : size ≠ 0 := by
      intro hzero
      rw [hzero, Nat.zero_mod] at hpart
      exact hpart rfl
    have hblock : dev.HasBlock bnum := hin bnum (Nat.le_refl _) (by omega)
    rw [readBlocks]
    by_cases hsize : dev.blockSize ≤ size
    · obtain ⟨dev₁, hread, hsame, -, -, hacc⟩ :=
        BlockDev.read_of_works (hworks 0 (Nat.succ_pos _)) hblock
      have hdiv : size / dev.blockSize = (size - dev.blockSize) / dev.blockSize + 1 := by
        rw [← Nat.add_div_right _ hbs, Nat.sub_add_cancel hsize]
      rw [if_pos hsize, hread]
      refine ih (by rw [hsame.blockSize]; exact hbs) _ _ _ _ (by rw [hsame.blockSize]; omega)
        ?_ ?_ ?_
      · rw [hsame.blockSize]
        exact hsame.hasBlocks (hin.tail hsize)
      · rw [hsame.blockSize, ← Nat.mod_eq_sub_mod hsize]
        exact hpart
      · intro i hi
        rw [hsame.blockSize] at hi
        rw [hsame.works hacc]
        exact hworks (1 + i) (by omega)
    · have hw : { dev with bufNum := some bnum }.Works 0 := hworks 0 (Nat.succ_pos _)
      have hblock' : { dev with bufNum := some bnum }.HasBlock bnum := hblock
      obtain ⟨dev₁, hread, hsame, hnum, hbuf, -⟩ := BlockDev.read_of_works hw hblock'
      rw [if_neg hsize, if_neg hpos, hread]
      refine BlockDev.coherent_of_read hsame hblock' hnum fun i hi => ?_
      rw [hbuf, blit_inside (by omega) (by omega), Nat.sub_zero]

section Calls

variable {dev : BlockDev} {offset size : Nat}

/-- The blocks after the first block of a request inside the device. -/
theorem hasBlocks_rest (hbs : 0 < dev.blockSize)
    (hspan : dev.blockSize < offset % dev.blockSize + size) (hrange : dev.HasRange offset size) :
    dev.HasBlocks (offset / dev.blockSize + 1)
      (size - (dev.blockSize - offset % dev.blockSize)) := by
  have hcur : offset % dev.blockSize < dev.blockSize := Nat.mod_lt _ hbs
  have hdm : dev.blockSize * (offset / dev.blockSize) + offset % dev.blockSize = offset :=
    Nat.div_add_mod _ _
  intro b hb hlt
  refine hrange b (by omega) ?_
  rw [Nat.le_div_iff_mul_le hbs]
  rw [Nat.succ_mul, Nat.mul_comm (offset / dev.blockSize)] at hlt
  omega

/-- A read leaves the cache coherent when its first block does, and the blocks
after it do. -/
theorem readData_coherent_of_first {dev₁ : BlockDev} {data : Mem}
    (hfirst : readFirst dev (offset / dev.blockSize) = (true, dev₁)) (hco : dev₁.Coherent)
    (hrest : dev.blockSize < u64 (offset % dev.blockSize + size) → ∀ data pos,
      (readBlocks (size + 1) dev₁ data pos (size - (dev.blockSize - offset % dev.blockSize))
        (offset / dev.blockSize + 1)).2.2.Coherent) :
    (readData dev offset data size).2.2.Coherent := by
  unfold readData
  dsimp only
  rw [hfirst]
  dsimp only
  by_cases hfits : u64 (offset % dev.blockSize + size) ≤ dev.blockSize
  · rw [if_pos hfits]
    exact hco
  · have h := hrest (Nat.lt_of_not_le hfits)
      (blit data 0 dev₁.buf (offset % dev.blockSize) (dev.blockSize - offset % dev.blockSize))
      (dev.blockSize + offset % dev.blockSize)
    rw [if_neg hfits]
    split <;> rename_i heq <;> rw [heq] at h <;> exact h

theorem readData_coherent (hbs : 0 < dev.blockSize) (hlt : dev.size < 2 ^ 64)
    (hc : dev.Coherent) {data : Mem} (hin : offset + size ≤ dev.size)
    (hkeep : (IoCall.read offset data size).KeepsCache dev) :
    (readData dev offset data size).2.2.Coherent := by
  have hle : offset % dev.blockSize ≤ offset := Nat.mod_le _ _
  have hwrap : u64 (offset % dev.blockSize + size) = offset % dev.blockSize + size :=
    Nat.mod_eq_of_lt (by omega)
  dsimp only [IoCall.KeepsCache] at hkeep
  by_cases hhit : dev.bufNum = some (offset / dev.blockSize)
  · rw [if_pos hhit] at hkeep
    refine readData_coherent_of_first (if_pos hhit) hc fun hspan data pos => ?_
    rw [hwrap] at hspan
    rcases hkeep with ⟨h, -⟩ | ⟨-, hfits | ⟨hrange, hpart, hworks⟩⟩
    · exact absurd h (by decide)
    · omega
    · exact readBlocks_coherent hbs (size + 1) data pos _ (offset / dev.blockSize + 1) (by omega)
        (hasBlocks_rest hbs hspan hrange) hpart (fun i hi => by simpa using hworks i hi)
  rw [if_neg hhit] at hkeep
  by_cases hw : dev.Works 0
  · by_cases hblock : dev.HasBlock (offset / dev.blockSize)
    · obtain ⟨dev₁, hread, hsame, -, hbuf, hacc⟩ := BlockDev.read_of_works hw hblock
      have hsame' : dev.SameDisk { dev₁ with bufNum := some (offset / dev.blockSize) } :=
        ⟨⟨hsame.size, hsame.blockSize, hsame.faults⟩, hsame.data⟩
      have hco₁ : { dev₁ with bufNum := some (offset / dev.blockSize) }.Coherent := by
        refine BlockDev.coherent_of_read hsame' hblock rfl fun i hi => ?_
        dsimp only
        rw [hbuf, blit_inside (by omega) (by omega), Nat.sub_zero]
      refine readData_coherent_of_first ?_ hco₁ fun hspan data pos => ?_
      · unfold readFirst
        rw [if_neg hhit, hread]
      rw [hwrap] at hspan
      rcases hkeep with ⟨-, hnw, -⟩ | ⟨-, hfits | ⟨hrange, hpart, hworks⟩⟩
      · exact absurd hw hnw
      · omega
      · refine readBlocks_coherent (by rw [hsame'.blockSize]; exact hbs) (size + 1) data pos _
          (offset / dev.blockSize + 1) (by omega) ?_ (by rw [hsame'.blockSize]; exact hpart) ?_
        · exact hsame'.hasBlocks (hasBlocks_rest hbs hspan hrange)
        · intro i hi
          rw [hsame'.blockSize] at hi
          rw [hsame'.works hacc]
          exact hworks i hi
    · -- Out of range only for an empty request at the end of the device.
      unfold readData
      dsimp only
      unfold readFirst
      rw [if_neg hhit, BlockDev.read_of_not_hasBlock hw hblock]
      exact hc
  · obtain ⟨dev₁, hread, hnum⟩ := BlockDev.read_of_not_works hw (offset / dev.blockSize)
    unfold readData
    dsimp only
    unfold readFirst
    rw [if_neg hhit, hread]
    rcases hkeep with ⟨-, -, hnone⟩ | ⟨hwork, -⟩
    · exact BlockDev.coherent_of_none (hnum.trans hnone)
    · exact absurd (hwork rfl) hw

end Calls

/-! ## Writes -/

/-- The rest of a write keeps the cache when its first whole block and its
trailing partial block are written without a failure. -/
theorem writeBlocks_coherent {dev : BlockDev} (hbs : 0 < dev.blockSize) (fuel : Nat) (data : Mem)
    (pos size bnum : Nat) (hfuel : size < fuel) (hc : dev.Coherent)
    (hin : dev.HasBlocks bnum size)
    (hwhole : dev.blockSize ≤ size → dev.bufNum = none ∨ dev.Works 0)
    (hpart : (∀ i, i < size / dev.blockSize → dev.Works i) → size % dev.blockSize ≠ 0 →
      dev.Works (size / dev.blockSize) ∧ dev.Works (size / dev.blockSize + 1)) :
    (writeBlocks fuel dev data pos size bnum).2.Coherent := by
  induction fuel generalizing dev data pos size bnum with
  | zero => omega
  | succ fuel ih =>
    rw [writeBlocks]
    by_cases hsize : dev.blockSize ≤ size
    · rw [if_pos hsize]
      have hdiv : size / dev.blockSize = (size - dev.blockSize) / dev.blockSize + 1 := by
        rw [← Nat.add_div_right _ hbs, Nat.sub_add_cancel hsize]
      by_cases hw : dev.Works 0
      · obtain ⟨dev₁, hwrite, hsame, -, -, -, hacc⟩ := BlockDev.write_of_works
          (d := { dev with buf := blit dev.buf 0 data pos dev.blockSize }) hw bnum
        have hbs₁ : dev₁.blockSize = dev.blockSize := hsame.blockSize
        have hworks : ∀ i, dev₁.Works i ↔ dev.Works (1 + i) := hsame.works hacc
        have hrest : dev₁.HasBlocks (bnum + 1) (size - dev₁.blockSize) := by
          rw [hbs₁]
          exact hsame.hasBlocks (hin.tail hsize)
        rw [hwrite]
        dsimp only
        refine @ih { dev₁ with bufNum := none } (by rw [hbs₁]; exact hbs) _ _ _ _
          (by rw [hbs₁]; omega) (BlockDev.coherent_of_none rfl) hrest (fun _ => Or.inl rfl) ?_
        · rw [hbs₁, ← Nat.mod_eq_sub_mod hsize]
          intro hall hmod
          have hlast := hpart (fun i hi => ?_) hmod
          · rw [hdiv] at hlast
            refine ⟨(hworks _).2 ?_, (hworks _).2 ?_⟩
            · rw [Nat.add_comm]; exact hlast.1
            · rw [Nat.add_comm]; exact hlast.2
          · cases i with
            | zero => exact hw
            | succ i =>
              rw [Nat.add_comm]
              exact (hworks i).1 (hall i (by omega))
      · -- Only the first whole block still has a number on the cache.
        have hnone : dev.bufNum = none := (hwhole hsize).resolve_right hw
        obtain ⟨dev₁, junk, hwrite, -, hnum, -, -⟩ := BlockDev.write_of_not_works
          (d := { dev with buf := blit dev.buf 0 data pos dev.blockSize }) hw bnum
        rw [hwrite]
        exact BlockDev.coherent_of_none (hnum.trans hnone)
    · rw [if_neg hsize]
      by_cases hzero : size = 0
      · rw [if_pos hzero]
        exact hc
      · have hlt : size < dev.blockSize := Nat.lt_of_not_le hsize
        rw [Nat.div_eq_of_lt hlt, Nat.mod_eq_of_lt hlt] at hpart
        obtain ⟨hw₀, hw₁⟩ := hpart (fun i hi => absurd hi (Nat.not_lt_zero i)) hzero
        have hblock : { dev with bufNum := some bnum }.HasBlock bnum :=
          hin bnum (Nat.le_refl _) (by omega)
        obtain ⟨dev₁, hread, hsame, hnum, -, hacc⟩ :=
          BlockDev.read_of_works (d := { dev with bufNum := some bnum }) hw₀ hblock
        obtain ⟨dev₂, hwrite, hsame₂, hnum₂, hbuf₂, hdata₂, -⟩ := BlockDev.write_of_works
          (d := { dev₁ with buf := blit dev₁.buf 0 data pos size })
          ((hsame.works hacc 0).2 hw₁) bnum
        have hbs₂ : dev₂.blockSize = dev₁.blockSize := hsame₂.blockSize
        rw [if_neg hzero, hread]
        dsimp only
        rw [hwrite]
        intro b hb
        rw [hnum₂] at hb
        dsimp only at hb
        rw [hnum] at hb
        obtain rfl : bnum = b := Option.some.inj hb
        refine ⟨hsame₂.hasBlock.2 (hsame.hasBlock.2 hblock), fun i hi => ?_⟩
        rw [hbs₂] at hi
        rw [hdata₂, hbuf₂, hbs₂]
        dsimp only
        rw [blit_add hi, Nat.zero_add]

section Calls

variable {dev : BlockDev} {offset size : Nat}

theorem writeData_coherent (hbs : 0 < dev.blockSize) (hlt : dev.size < 2 ^ 64)
    (hc : dev.Coherent) {data : Mem} (hin : offset + size ≤ dev.size)
    (hkeep : (IoCall.write offset data size).KeepsCache dev) :
    (writeData dev offset data size).2.Coherent := by
  have hle : offset % dev.blockSize ≤ offset := Nat.mod_le _ _
  have hwrap : u64 (offset % dev.blockSize + size) = offset % dev.blockSize + size :=
    Nat.mod_eq_of_lt (by omega)
  dsimp only [IoCall.KeepsCache] at hkeep
  unfold writeData
  dsimp only
  rw [hwrap]
  rcases hkeep with ⟨hnw, hnone⟩ | ⟨hw₀, hw₁, hrest⟩
  · obtain ⟨dev₁, hread, hnum⟩ := BlockDev.read_of_not_works hnw (offset / dev.blockSize)
    rw [hread]
    exact BlockDev.coherent_of_none (hnum.trans hnone)
  by_cases hblock : dev.HasBlock (offset / dev.blockSize)
  · obtain ⟨dev₁, hread, hsame₁, -, -, hacc₁⟩ := BlockDev.read_of_works hw₀ hblock
    have hw₁' : dev₁.Works 0 := (hsame₁.works hacc₁ 0).2 hw₁
    rw [hread]
    dsimp only
    by_cases hfits : offset % dev.blockSize + size ≤ dev.blockSize
    · obtain ⟨dev₂, hwrite, -⟩ := BlockDev.write_of_works (d := { dev₁ with
          bufNum := some (offset / dev.blockSize)
          buf := blit dev₁.buf (offset % dev.blockSize) data 0 size })
        hw₁' (offset / dev.blockSize)
      rw [if_pos hfits, hwrite]
      exact fun _ h => nomatch h
    · obtain ⟨dev₂, hwrite, hsame₂, hnum₂, hbuf₂, hdata₂, hacc₂⟩ := BlockDev.write_of_works
        (d := { dev₁ with
          bufNum := some (offset / dev.blockSize)
          buf := blit dev₁.buf (offset % dev.blockSize) data 0
            (dev.blockSize - offset % dev.blockSize) })
        hw₁' (offset / dev.blockSize)
      have hsame : dev.SameDevice dev₂ := ⟨hsame₂.size.trans hsame₁.size,
        hsame₂.blockSize.trans hsame₁.blockSize, hsame₂.faults.trans hsame₁.faults⟩
      have hworks : ∀ i, dev₂.Works i ↔ dev.Works (2 + i) :=
        hsame.works (by rw [hacc₂]; dsimp only; rw [hacc₁])
      have hc₂ : dev₂.Coherent := by
        intro b hb
        rw [hnum₂] at hb
        obtain rfl : offset / dev.blockSize = b := Option.some.inj hb
        refine ⟨hsame.hasBlock.2 hblock, fun i hi => ?_⟩
        rw [hsame₂.blockSize] at hi
        rw [hdata₂, hbuf₂, hsame₂.blockSize]
        dsimp only at hi ⊢
        rw [blit_add hi, Nat.zero_add]
      obtain ⟨hrange, hwhole, hpart⟩ := hrest.resolve_left hfits
      have hco := writeBlocks_coherent (by rw [hsame.blockSize]; exact hbs) (size + 1) data
        (dev.blockSize - offset % dev.blockSize)
        (size - (dev.blockSize - offset % dev.blockSize)) (offset / dev.blockSize + 1)
        (by omega) hc₂ (hsame.hasBlocks (hasBlocks_rest hbs (by omega) hrange))
        (fun hle => Or.inr ((hworks 0).2 (hwhole (Nat.div_pos
          (by rw [hsame.blockSize] at hle; exact hle) hbs))))
        (by
          rw [hsame.blockSize]
          intro hall hmod
          obtain ⟨hread₂, hwrite₂⟩ := hpart (fun i hi => (hworks i).1 (hall i hi)) hmod
          refine ⟨(hworks _).2 hread₂, (hworks _).2 ?_⟩
          rw [← Nat.add_assoc, Nat.add_right_comm]
          exact hwrite₂)
      rw [if_neg hfits, hwrite]
      dsimp only
      split <;> rename_i heq <;> rw [heq] at hco <;> exact hco
  · rw [BlockDev.read_of_not_hasBlock hw₀ hblock]
    exact hc

end Calls

/-! ## Copies -/

theorem copyBlock_bufNum (dev : BlockDev) (src dest size : Nat) :
    (copyBlock dev src dest size).2.bufNum = dev.bufNum := by
  induction size generalizing dev src dest with
  | zero => rfl
  | succ size ih =>
    have hread := dev.read_bufNum src
    rw [copyBlock]
    split <;> rename_i heq <;> rw [heq] at hread
    · exact hread
    · rename_i dev₁
      have hwrite := dev₁.write_bufNum dest
      split <;> rename_i heq' <;> rw [heq'] at hwrite
      · exact hwrite.trans hread
      · rw [ih]
        exact hwrite.trans hread

/-- A write to another block than the cached one keeps the cache. -/
theorem coherent_of_write_other {dev dev' : BlockDev} {b dest : Nat} {bytes : Mem}
    (hsame : dev.SameDevice dev')
    (hdata : dev'.data = blit dev.data (dest * dev.blockSize) bytes 0 dev.blockSize)
    (hnum : dev'.bufNum = some b) (hblock : dev.HasBlock b) (hne : b ≠ dest)
    (hbuf : ∀ i, i < dev.blockSize → dev'.buf i = dev.data (b * dev.blockSize + i)) :
    dev'.Coherent := by
  intro b' hb'
  rw [hnum] at hb'
  obtain rfl : b = b' := Option.some.inj hb'
  refine ⟨hsame.hasBlock.2 hblock, fun i hi => ?_⟩
  rw [hsame.blockSize] at hi ⊢
  rw [hbuf i hi, hdata, blit_outside]
  rcases Nat.lt_or_gt_of_ne hne with h | h
  · have hle := Nat.mul_le_mul_right dev.blockSize (show b + 1 ≤ dest from h)
    rw [Nat.succ_mul] at hle
    omega
  · have hle := Nat.mul_le_mul_right dev.blockSize (show dest + 1 ≤ b from h)
    rw [Nat.succ_mul] at hle
    omega

/-- The block just written from the buffer agrees with it. -/
theorem coherent_of_write_same {dev dev' : BlockDev} {dest : Nat} (hsame : dev.SameDevice dev')
    (hdata : dev'.data = blit dev.data (dest * dev.blockSize) dev'.buf 0 dev.blockSize)
    (hnum : dev'.bufNum = some dest) (hblock : dev.HasBlock dest) : dev'.Coherent := by
  intro b hb
  rw [hnum] at hb
  obtain rfl : dest = b := Option.some.inj hb
  refine ⟨hsame.hasBlock.2 hblock, fun i hi => ?_⟩
  rw [hsame.blockSize] at hi ⊢
  rw [hdata, blit_add hi, Nat.zero_add]

/-- A copy that ends at its `k`-th block leaves the contents of that block in
the buffer. -/
theorem copyBlock_coherent_of_cached {dev : BlockDev} (src dest size k : Nat) (hk : k < size)
    (hsrc : ∀ i, i < size → dev.HasBlock (src + i))
    (hdest : ∀ i, i < size → dev.HasBlock (dest + i))
    (hworks : ∀ i, i < 2 * k + 1 → dev.Works i)
    (hend : (k + 1 = size ∧ dev.Works (2 * k + 1) ∧
        (dev.bufNum = some (src + k) ∨ dev.bufNum = some (dest + k))) ∨
      (¬ dev.Works (2 * k + 1) ∧ src ≠ dest ∧ dev.bufNum = some (src + k))) :
    (copyBlock dev src dest size).2.Coherent := by
  induction k generalizing dev src dest size with
  | zero =>
    cases size with
    | zero => omega
    | succ size =>
      have hb : dev.HasBlock src := hsrc 0 (by omega)
      obtain ⟨dev₁, hread, hsame₁, hnum₁, hbuf₁, hacc₁⟩ :=
        BlockDev.read_of_works (hworks 0 (by omega)) hb
      have hbuf : ∀ i, i < dev₁.blockSize →
          dev₁.buf i = dev₁.data (src * dev₁.blockSize + i) := by
        intro i hi
        rw [hsame₁.blockSize] at hi ⊢
        rw [hbuf₁, hsame₁.data, blit_inside (by omega) (by omega), Nat.sub_zero]
      have hb₁ : dev₁.HasBlock src := hsame₁.hasBlock.2 hb
      rw [copyBlock, hread]
      dsimp only
      rcases hend with ⟨hsize, hw, hnum⟩ | ⟨hnw, hne, hnum⟩
      · obtain rfl : size = 0 := by omega
        obtain ⟨dev₂, hwrite, hsame₂, hnum₂, hbuf₂, hdata₂, -⟩ :=
          BlockDev.write_of_works ((hsame₁.works hacc₁ 0).2 hw) dest
        rw [hwrite]
        dsimp only
        rw [copyBlock]
        rw [← hbuf₂] at hdata₂
        by_cases heq : dev.bufNum = some dest
        · exact coherent_of_write_same hsame₂ hdata₂ ((hnum₂.trans hnum₁).trans heq)
            (hsame₁.hasBlock.2 (hdest 0 (by omega)))
        · have hsrcNum : dev.bufNum = some src := hnum.resolve_right heq
          have hne : src ≠ dest := fun h => heq (by rw [hsrcNum, h])
          refine coherent_of_write_other hsame₂ hdata₂
            ((hnum₂.trans hnum₁).trans hsrcNum) hb₁ hne ?_
          intro i hi
          rw [hbuf₂]
          exact hbuf i hi
      · have hnw₁ : ¬ dev₁.Works 0 := fun h => hnw ((hsame₁.works hacc₁ 0).1 h)
        obtain ⟨dev₂, junk, hwrite, hsame₂, hnum₂, hbuf₂, hdata₂⟩ :=
          BlockDev.write_of_not_works hnw₁ dest
        rw [hwrite]
        refine coherent_of_write_other hsame₂ hdata₂ ((hnum₂.trans hnum₁).trans hnum) hb₁ hne ?_
        intro i hi
        rw [hbuf₂]
        exact hbuf i hi
  | succ k ih =>
    cases size with
    | zero => omega
    | succ size =>
      have hb : dev.HasBlock src := hsrc 0 (by omega)
      obtain ⟨dev₁, hread, hsame₁, hnum₁, -, hacc₁⟩ :=
        BlockDev.read_of_works (hworks 0 (by omega)) hb
      obtain ⟨dev₂, hwrite, hsame₂, hnum₂, -, -, hacc₂⟩ :=
        BlockDev.write_of_works ((hsame₁.works hacc₁ 0).2 (hworks 1 (by omega))) dest
      have hsame := hsame₁.toSameDevice.trans hsame₂
      have hshift : ∀ i, dev₂.Works i ↔ dev.Works (2 + i) :=
        hsame.works (by rw [hacc₂, hacc₁])
      rw [copyBlock, hread]
      dsimp only
      rw [hwrite]
      dsimp only
      refine ih (src + 1) (dest + 1) size (by omega) ?_ ?_ ?_ ?_
      · intro i hi
        rw [Nat.add_assoc, Nat.add_comm 1]
        exact hsame.hasBlock.2 (hsrc (i + 1) (by omega))
      · intro i hi
        rw [Nat.add_assoc, Nat.add_comm 1]
        exact hsame.hasBlock.2 (hdest (i + 1) (by omega))
      · intro i hi
        exact (hshift i).2 (hworks (2 + i) (by omega))
      · rw [hshift, hnum₂, hnum₁, show 2 + (2 * k + 1) = 2 * (k + 1) + 1 by omega,
          show src + 1 + k = src + (k + 1) by omega, show dest + 1 + k = dest + (k + 1) by omega]
        rcases hend with ⟨hsize, hw, hnum⟩ | ⟨hnw, hne, hnum⟩
        · exact Or.inl ⟨by omega, hw, hnum⟩
        · exact Or.inr ⟨hnw, by omega, hnum⟩

/-! ## Runs -/

namespace BlockDev

theorem read_sameDevice (dev : BlockDev) (b : Nat) : dev.SameDevice (dev.read b).2 := by
  unfold read
  dsimp only
  split
  · exact ⟨rfl, rfl, rfl⟩
  · split <;> exact ⟨rfl, rfl, rfl⟩

theorem write_sameDevice (dev : BlockDev) (b : Nat) : dev.SameDevice (dev.write b).2 := by
  unfold write
  dsimp only
  split <;> exact ⟨rfl, rfl, rfl⟩

end BlockDev

theorem readBlocks_sameDevice (fuel : Nat) (dev : BlockDev) (data : Mem) (pos size bnum : Nat) :
    dev.SameDevice (readBlocks fuel dev data pos size bnum).2.2 := by
  induction fuel generalizing dev data pos size bnum with
  | zero => exact ⟨rfl, rfl, rfl⟩
  | succ fuel ih =>
    rw [readBlocks]
    by_cases hsize : dev.blockSize ≤ size
    · have hread := dev.read_sameDevice bnum
      rw [if_pos hsize]
      split <;> rename_i heq <;> rw [heq] at hread
      · exact hread
      · exact hread.trans (ih _ _ _ _ _)
    · rw [if_neg hsize]
      by_cases hzero : size = 0
      · rw [if_pos hzero]
        exact ⟨rfl, rfl, rfl⟩
      · have hread := BlockDev.read_sameDevice { dev with bufNum := some bnum } bnum
        rw [if_neg hzero]
        split <;> rename_i heq <;> rw [heq] at hread <;>
          exact ⟨hread.size, hread.blockSize, hread.faults⟩

theorem readData_sameDevice (dev : BlockDev) (offset : Nat) (data : Mem) (size : Nat) :
    dev.SameDevice (readData dev offset data size).2.2 := by
  have hfirst : dev.SameDevice (readFirst dev (offset / dev.blockSize)).2 := by
    have hread := dev.read_sameDevice (offset / dev.blockSize)
    unfold readFirst
    split
    · exact ⟨rfl, rfl, rfl⟩
    · split <;> rename_i heq <;> rw [heq] at hread
      · exact hread
      · exact ⟨hread.size, hread.blockSize, hread.faults⟩
  unfold readData
  dsimp only
  split <;> rename_i heq <;> rw [heq] at hfirst
  · exact hfirst
  · split
    · exact hfirst
    · split <;> rename_i heq' <;> refine hfirst.trans ?_
      · exact congrArg (fun x => x.2.2) heq' ▸ readBlocks_sameDevice _ _ _ _ _ _
      · exact congrArg (fun x => x.2.2) heq' ▸ readBlocks_sameDevice _ _ _ _ _ _

theorem writeBlocks_sameDevice (fuel : Nat) (dev : BlockDev) (data : Mem) (pos size bnum : Nat) :
    dev.SameDevice (writeBlocks fuel dev data pos size bnum).2 := by
  induction fuel generalizing dev pos size bnum with
  | zero => exact ⟨rfl, rfl, rfl⟩
  | succ fuel ih =>
    rw [writeBlocks]
    by_cases hsize : dev.blockSize ≤ size
    · have hwrite := BlockDev.write_sameDevice
        { dev with buf := blit dev.buf 0 data pos dev.blockSize } bnum
      rw [if_pos hsize]
      split <;> rename_i dev₁ heq <;> rw [heq] at hwrite
      · exact ⟨hwrite.size, hwrite.blockSize, hwrite.faults⟩
      · have hrest := ih { dev₁ with bufNum := none } (pos + dev₁.blockSize)
          (size - dev₁.blockSize) (bnum + 1)
        exact ⟨hrest.size.trans hwrite.size, hrest.blockSize.trans hwrite.blockSize,
          hrest.faults.trans hwrite.faults⟩
    · rw [if_neg hsize]
      by_cases hzero : size = 0
      · rw [if_pos hzero]
        exact ⟨rfl, rfl, rfl⟩
      · have hread := BlockDev.read_sameDevice { dev with bufNum := some bnum } bnum
        rw [if_neg hzero]
        split <;> rename_i dev₁ heq <;> rw [heq] at hread
        · exact ⟨hread.size, hread.blockSize, hread.faults⟩
        · have hwrite := BlockDev.write_sameDevice
            { dev₁ with buf := blit dev₁.buf 0 data pos size } bnum
          exact ⟨hwrite.size.trans hread.size, hwrite.blockSize.trans hread.blockSize,
            hwrite.faults.trans hread.faults⟩

theorem writeData_sameDevice (dev : BlockDev) (offset : Nat) (data : Mem) (size : Nat) :
    dev.SameDevice (writeData dev offset data size).2 := by
  have hread := dev.read_sameDevice (offset / dev.blockSize)
  unfold writeData
  dsimp only
  split <;> rename_i dev₁ heq <;> rw [heq] at hread
  · exact hread
  · split
    · have hwrite := BlockDev.write_sameDevice { dev₁ with
        bufNum := some (offset / dev.blockSize)
        buf := blit dev₁.buf (offset % dev.blockSize) data 0 size } (offset / dev.blockSize)
      split <;> rename_i heq' <;> rw [heq'] at hwrite <;>
        exact ⟨hwrite.size.trans hread.size, hwrite.blockSize.trans hread.blockSize,
          hwrite.faults.trans hread.faults⟩
    · have hwrite := BlockDev.write_sameDevice { dev₁ with
        bufNum := some (offset / dev.blockSize)
        buf := blit dev₁.buf (offset % dev.blockSize) data 0
          (dev.blockSize - offset % dev.blockSize) } (offset / dev.blockSize)
      split <;> rename_i dev₂ heq' <;> rw [heq'] at hwrite
      · exact ⟨hwrite.size.trans hread.size, hwrite.blockSize.trans hread.blockSize,
          hwrite.faults.trans hread.faults⟩
      · have hsame : dev.SameDevice dev₂ := ⟨hwrite.size.trans hread.size,
          hwrite.blockSize.trans hread.blockSize, hwrite.faults.trans hread.faults⟩
        have hrest := writeBlocks_sameDevice (size + 1) dev₂ data
          (dev.blockSize - offset % dev.blockSize)
          (size - (dev.blockSize - offset % dev.blockSize)) (offset / dev.blockSize + 1)
        split <;> rename_i heq₂ <;> rw [heq₂] at hrest <;> exact hsame.trans hrest

theorem copyBlock_sameDevice (dev : BlockDev) (src dest size : Nat) :
    dev.SameDevice (copyBlock dev src dest size).2 := by
  induction size generalizing dev src dest with
  | zero => exact ⟨rfl, rfl, rfl⟩
  | succ size ih =>
    have hread := dev.read_sameDevice src
    rw [copyBlock]
    split <;> rename_i dev₁ heq <;> rw [heq] at hread
    · exact hread
    · have hwrite := dev₁.write_sameDevice dest
      split <;> rename_i heq' <;> rw [heq'] at hwrite
      · exact hread.trans hwrite
      · exact (hread.trans hwrite).trans (ih _ _ _)

namespace IoCall

theorem run_sameDevice (dev : BlockDev) (call : IoCall) : dev.SameDevice (call.run dev) := by
  cases call with
  | read offset data size => exact readData_sameDevice dev offset data size
  | write offset data size => exact writeData_sameDevice dev offset data size
  | copy src dest size => exact copyBlock_sameDevice dev src dest size

/-- A call that meets its condition keeps the cache coherent. -/
theorem run_coherent {dev : BlockDev} (hbs : 0 < dev.blockSize) (hlt : dev.size < 2 ^ 64)
    (hc : dev.Coherent) {call : IoCall} (hin : call.InRange dev) (hkeep : call.KeepsCache dev) :
    (call.run dev).Coherent := by
  cases call with
  | read offset data size => exact readData_coherent hbs hlt hc hin hkeep
  | write offset data size => exact writeData_coherent hbs hlt hc hin hkeep
  | copy src dest size =>
    rcases hkeep with hnone | hzero | ⟨k, hk, hworks, hend⟩
    · exact BlockDev.coherent_of_none ((copyBlock_bufNum dev src dest size).trans hnone)
    · rw [hzero]
      exact hc
    · have hblock : ∀ b n, (b + n) * dev.blockSize ≤ dev.size → ∀ i, i < n →
          dev.HasBlock (b + i) := by
        intro b n hle i hi
        have hmul := Nat.mul_le_mul_right dev.blockSize (show b + i + 1 ≤ b + n by omega)
        rw [Nat.succ_mul] at hmul
        exact Nat.le_trans hmul hle
      exact copyBlock_coherent_of_cached src dest size k hk (hblock _ _ hin.1) (hblock _ _ hin.2)
        hworks hend

/-- A call as a step of the device.  Every call returns. -/
def step (dev : BlockDev) (call : IoCall) : Option BlockDev := some (call.run dev)

end IoCall

/-- Along every sequence of calls that each meet their condition, the cache
stays coherent. -/
theorem cache_coherent_run {dev : BlockDev} (hbs : 0 < dev.blockSize) (hlt : dev.size < 2 ^ 64)
    (hc : dev.Coherent) {calls : List IoCall}
    (hcalls : Meets IoCall.step (fun dev call => call.InRange dev ∧ call.KeepsCache dev) dev calls)
    (n : Nat) : ∃ dev', run IoCall.step dev (calls.take n) = some dev' ∧ dev'.Coherent := by
  have hinv := run_invariant (f := IoCall.step)
    (I := fun d => d.Coherent ∧ 0 < d.blockSize ∧ d.size < 2 ^ 64)
    (C := fun dev call => call.InRange dev ∧ call.KeepsCache dev)
    (fun d call hd hcall => by
      have hsame := call.run_sameDevice d
      refine ⟨call.run d, rfl, call.run_coherent hd.2.1 hd.2.2 hd.1 hcall.1 hcall.2, ?_, ?_⟩
      · rw [hsame.blockSize]; exact hd.2.1
      · rw [hsame.size]; exact hd.2.2)
    ⟨hc, hbs, hlt⟩ hcalls n
  obtain ⟨dev', hrun, hco, -⟩ := hinv
  exact ⟨dev', hrun, hco⟩

/-- A device of two blocks, of zeros and of ones, that works. -/
def twoBlocks : BlockDev where
  size := 512
  blockSize := 256
  data := fun i => if i < 256 then 0 else 1
  buf := fun _ => 0
  bufNum := none
  faults := fun _ => none
  accesses := 0

theorem cache_coherent_run_twoBlocks :
    ∃ dev', run IoCall.step twoBlocks
        (List.take 2 [IoCall.write 0 (fun _ => 7) 300, IoCall.read 3 (fun _ => 0) 20]) = some dev' ∧
      dev'.Coherent := by
  refine cache_coherent_run (by decide) (by decide) (BlockDev.coherent_of_none rfl) ?_ 2
  refine ⟨⟨show 0 + 300 ≤ 512 by decide, Or.inr
    ⟨rfl, rfl, Or.inr ⟨?_, fun _ => rfl, fun _ _ => ⟨rfl, rfl⟩⟩⟩⟩, ?_⟩
  · exact BlockDev.hasRange_of_le (by decide) ⟨2, rfl⟩ (by decide) (by decide)
  · intro dev' hdev'
    obtain rfl : IoCall.run twoBlocks (.write 0 (fun _ => 7) 300) = dev' := Option.some.inj hdev'
    exact ⟨⟨show 3 + 20 ≤ 512 by decide, Or.inr ⟨fun _ => rfl, Or.inl (by decide)⟩⟩,
      fun _ _ => trivial⟩

/-- A read that ends with a whole block leaves that block in the buffer under
the number of the first one. -/
theorem cache_incoherent_after_whole_block :
    twoBlocks.Quiet ∧ twoBlocks.Coherent ∧ (IoCall.read 0 (fun _ => 0) 512).InRange twoBlocks ∧
      ¬ (IoCall.run twoBlocks (.read 0 (fun _ => 0) 512)).Coherent := by
  refine ⟨fun _ => rfl, BlockDev.coherent_of_none rfl, show 0 + 512 ≤ 512 by decide, ?_⟩
  intro h
  have hbuf := (h 0 rfl).2 0 (by decide)
  exact absurd hbuf (by decide)

end Sfs
