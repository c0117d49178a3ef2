import OsConcepts.Disk.Requests

/-!
# Requests are all or nothing and in place

A request that is refused touches nothing, and one whose blocks are on the disk
and whose seek lands is carried out where it belongs (`exec_inPlace`). So along
every run of such requests the disk holds what was last written to each of its
blocks, and reads deliver it. A negative address passes the check, and its seek
fails: the transfer starts wherever the one before it stopped.
-/

namespace OsConcepts.Disk

open OsConcepts

variable {B M : Nat} {d d' : Disk B M} {op : Op} {r : Request} {tr : List (Op × Int)}

/-! ## The seek -/

theorem fseek_lands (hpos : 0 ≤ r.startAddress) (h : Lands r d) :
    d.fseek (wrap32 (r.startAddress * B)) = d.moveTo (r.startAddress.toNat * B) := by
  obtain ⟨a, ha⟩ := Int.eq_ofNat_of_zero_le hpos
  unfold Lands at h
  rw [ha] at h ⊢
  rw [Int.toNat_natCast, ← Int.natCast_mul] at *
  rcases h with hfits | ⟨hneg, hstream⟩
  · rw [wrap32_of_range ⟨by omega, hfits⟩, fseek_natCast]
  · rw [fseek_neg hneg, show a * B = d.pos by omega, moveTo_pos]

/-- The stream stands where the transfer belongs, if there is one. -/
theorem exists_start (hwithin : Within M r) (h : r.nblocks = 0 ∨ Lands r d) :
    ∃ a p, r.startAddress = (a : Nat) ∧ a + r.nblocks ≤ M ∧
      d.fseek (wrap32 (r.startAddress * B)) = d.moveTo p ∧ (r.nblocks = 0 ∨ p = a * B) := by
  obtain ⟨hpos, hend⟩ := hwithin
  obtain ⟨a, ha⟩ := Int.eq_ofNat_of_zero_le hpos
  rcases h with hzero | hlands
  · obtain ⟨p, hp⟩ := fseek_disk_pos (wrap32 (r.startAddress * B)) d
    exact ⟨a, p, ha, by omega, hp, Or.inl hzero⟩
  · refine ⟨a, a * B, ha, by omega, ?_, Or.inr rfl⟩
    rw [fseek_lands hpos hlands, ha, Int.toNat_natCast]

/-! ## One request -/

theorem exec_refused (h : ¬ Admits M op.request) :
    op.exec d = some (-1, op.request.buffer, d) := by
  unfold Op.exec
  rw [if_neg fun hboth => h hboth.1]
  unfold Admits at h
  cases op with
  | read junk r =>
      dsimp only [Op.request] at h ⊢
      rw [readBlocks, if_pos (by omega)]
  | write r =>
      dsimp only [Op.request] at h ⊢
      rw [writeBlocks, if_pos (by omega)]

theorem Within.admits (h : Within M r) (hM : Int32Range M) : Admits M r := by
  obtain ⟨hpos, hend⟩ := h
  obtain ⟨-, hmax⟩ := hM
  unfold Admits
  rw [wrap32_of_range ⟨by omega, by omega⟩]
  exact hend

/-- The blocks a transfer from the right place replaces. -/
theorem block_transfer {a p b : Nat} {n : Nat} (buf : Mem) (hend : a + n ≤ M) (hb : b < M)
    (hp : n = 0 ∨ p = a * B) :
    (writeLoop buf n 0 (d.moveTo p)).block b =
      if a ≤ b ∧ b < a + n then fun j : Fin B => buf ((b - a) * B + j) else d.block b := by
  rcases hp with rfl | rfl
  · rw [writeLoop, if_neg (by omega), block_moveTo]
  · exact writeLoop_block buf hend hb

/-- And the bytes it delivers. -/
theorem buffer_transfer {junk buf : Mem} {a p k : Nat} {n : Nat} (hend : a + n ≤ M)
    (hp : n = 0 ∨ p = a * B) :
    (readLoop junk n 0 buf (d.moveTo p)).1 k =
      if k < n * B then d.bytes (a * B + k) else buf k := by
  rcases hp with rfl | rfl
  · rw [readLoop, Nat.zero_mul, if_neg (Nat.not_lt_zero k)]
  · rw [readLoop_buffer (by simpa using room hend)]
    simp

/-- A byte at an offset from a block is one of the blocks behind it. -/
theorem bytes_eq_block (d : Disk B M) {a k : Nat} (hB : 0 < B) :
    d.bytes (a * B + k) = d.block (a + k / B) ⟨k % B, Nat.mod_lt k hB⟩ := by
  unfold block
  congr 1
  rw [Nat.add_mul, Nat.add_assoc, Nat.mul_comm (k / B) B, Nat.div_add_mod]

/-- The spec of a call that is refused or placed: it comes back and has done
what it is to do. -/
theorem exec_inPlace (hB : 0 < B) (hM : Int32Range M) (hok : Placed d op)
    (hold : ∀ b < M, d.block b = lastWritten B tr b) :
    ∃ ret buffer d', op.exec d = some (ret, buffer, d') ∧ InPlace tr op d ret buffer d' := by
  rcases hok with hrefused | ⟨hwithin, haddr, hlands⟩
  · exact ⟨-1, _, d, exec_refused hrefused,
      Or.inl ⟨rfl, rfl, rfl⟩, fun h => absurd rfl h, fun h => absurd rfl h⟩
  · have hadmits := hwithin.admits hM
    obtain ⟨a, p, ha, hend, hseek, hp⟩ := exists_start hwithin hlands
    have hcheck : wrap32 (op.request.startAddress + op.request.nblocks) ≤ M := hadmits
    unfold Op.exec
    rw [if_neg fun hboth => hboth.2 haddr]
    cases op with
    | read junk r =>
        dsimp only [Op.request] at *
        obtain ⟨q, hq⟩ := readBlocks_disk_pos junk r.buffer r.startAddress r.nblocks d
        have hret : (d.readBlocks junk r.startAddress r.nblocks r.buffer).1 = r.nblocks := by
          rw [readBlocks, if_neg (by omega), Int.toNat_natCast]
        have hbuf : (d.readBlocks junk r.startAddress r.nblocks r.buffer).2.1 =
            (readLoop junk r.nblocks 0 r.buffer (d.moveTo p)).1 := by
          rw [readBlocks, if_neg (by omega), Int.toNat_natCast, hseek]
        generalize d.readBlocks junk r.startAddress r.nblocks r.buffer = x at hq hret hbuf ⊢
        obtain ⟨ret, buffer, d'⟩ := x
        dsimp only at hq hret hbuf ⊢
        refine ⟨ret, buffer, d', rfl, Or.inr ⟨hret, hwithin⟩, fun _ b _ => ?_, fun _ k => ?_⟩
        · rw [hq, block_moveTo, Op.blockAfter]
        · rw [hbuf, buffer_transfer hend hp, Op.byteAfter, ha, Int.toNat_natCast]
          split
          · next hk =>
              have := Nat.div_lt_of_lt_mul (Nat.mul_comm _ B ▸ hk)
              rw [bytes_eq_block d hB, hold _ (by omega)]
          · rfl
    | write r =>
        dsimp only [Op.request] at *
        have heq : d.writeBlocks r.startAddress r.nblocks r.buffer =
            (((r.nblocks : Nat) : Int), writeLoop r.buffer r.nblocks 0 (d.moveTo p)) := by
          rw [writeBlocks, if_neg (by omega), Int.toNat_natCast, hseek]
        rw [heq]
        refine ⟨_, _, _, rfl, Or.inr ⟨rfl, hwithin⟩, fun _ b hb => ?_, fun _ k => rfl⟩
        · rw [block_transfer r.buffer hend hb hp, Op.blockAfter, ha]
          by_cases hin : a ≤ b ∧ b < a + r.nblocks
          · rw [if_pos hin, if_pos ⟨by omega, by omega⟩,
              show (b - (a : Int)).toNat = b - a by omega]
          · rw [if_neg hin, if_neg (by omega)]

/-- Where the whole disk can be addressed by an `int`, nothing but a refused or
placed call does what it is to do. -/
theorem InPlace.placed {ret : Int} {buffer : Mem} (hBM : B * M < 2147483648)
    (hexec : op.exec d = some (ret, buffer, d')) (h : InPlace tr op d ret buffer d') :
    Placed d op := by
  by_cases hadmits : Admits M op.request
  · have hcount : ret = op.request.nblocks := by
      have hcheck : wrap32 (op.request.startAddress + op.request.nblocks) ≤ M := hadmits
      unfold Op.exec at hexec
      split at hexec
      · cases hexec
      · cases op with
        | read junk r =>
            dsimp only [Op.request] at *
            rw [readBlocks, if_neg (by omega)] at hexec
            cases hexec
            exact congrArg Nat.cast (Int.toNat_natCast r.nblocks)
        | write r =>
            dsimp only [Op.request] at *
            rw [writeBlocks, if_neg (by omega)] at hexec
            cases hexec
            exact congrArg Nat.cast (Int.toNat_natCast r.nblocks)
    obtain ⟨hpos, hend⟩ : Within M op.request := by
      rcases h.answered with ⟨hret, -⟩ | ⟨-, hwithin⟩
      · omega
      · exact hwithin
    obtain ⟨a, ha⟩ := Int.eq_ofNat_of_zero_le hpos
    have hin : ∀ i < M, i * B < 2147483648 := by
      intro i hi
      have := Nat.mul_le_mul_right B (Nat.le_of_lt hi)
      rw [Nat.mul_comm M B] at this
      omega
    refine Or.inr ⟨⟨hpos, hend⟩, fun i hi => hin i (by omega), ?_⟩
    by_cases hn : op.request.nblocks = 0
    · exact Or.inl hn
    · refine Or.inr (Or.inl ?_)
      have := hin a (by omega)
      rw [ha, ← Int.natCast_mul]
      omega
  · exact Or.inl hadmits

/-! ## Runs -/

/-- What a placed call leaves is what has been written last with the call
counted in. -/
theorem lastWritten_exec {ret : Int} {buffer : Mem} (h : InPlace tr op d ret buffer d')
    (hold : ∀ b < M, d.block b = lastWritten B tr b) (b : Nat) (hb : b < M) :
    d'.block b = lastWritten B ((op, ret) :: tr) b := by
  by_cases hret : ret = -1
  · have hsame : d' = d := by
      rcases h.answered with ⟨-, hsame, -⟩ | ⟨hcount, -⟩
      · exact hsame
      · omega
    rw [hsame, hold b hb, hret]
    cases op with
    | read junk r => rfl
    | write r => rw [lastWritten, if_neg fun h => h.1 rfl]
  · rw [h.blocks hret b hb]
    cases op with
    | read junk r => exact hold b hb
    | write r =>
        rw [Op.blockAfter, lastWritten]
        by_cases hin : r.startAddress ≤ b ∧ (b : Int) < r.startAddress + r.nblocks
        · rw [if_pos hin, if_pos ⟨hret, hin⟩]
        · rw [if_neg hin, if_neg fun h => hin h.2, hold b hb]

/-- Along a run of placed requests every block holds what was last written to
it. -/
theorem block_eq_lastWritten (hB : 0 < B) (hM : Int32Range M)
    (hrun : ((requests B M).guard fun d a => Placed d a.1).Run tr d) :
    ∀ b < M, d.block b = lastWritten B tr b := by
  refine System.Run.induction
    (I := fun tr (d : Disk B M) => ∀ b < M, d.block b = lastWritten B tr b)
    (fun d hd b _ => ?_) (fun tr d a d' hold hstep b hb => ?_) hrun
  · rw [hd]
    rfl
  · obtain ⟨hok, buffer, hexec⟩ := hstep
    obtain ⟨ret, buffer', d'', hexec', hin⟩ := exec_inPlace hB hM hok hold
    obtain ⟨rfl, rfl, rfl⟩ : ret = a.2 ∧ buffer' = buffer ∧ d'' = d' := by
      have heq := hexec'.symm.trans hexec
      injection heq with heq
      injection heq with hret heq
      injection heq with hbuf hd
      exact ⟨hret, hbuf, hd⟩
    exact lastWritten_exec hin hold b hb

/-- All or nothing and in place: in every run of requests that are refused or
placed, the next such request comes back, and is refused and changes nothing or
does exactly what it is to do. -/
theorem requests_inPlace (hB : 0 < B) (hM : Int32Range M)
    (hrun : ((requests B M).guard fun d a => Placed d a.1).Run tr d) (hok : Placed d op) :
    ∃ ret buffer d', op.exec d = some (ret, buffer, d') ∧ InPlace tr op d ret buffer d' :=
  exec_inPlace hB hM hok (block_eq_lastWritten hB hM hrun)

/-- One block of ones. -/
def ones (address : Int) (h : Int32Range address) : Request where
  startAddress := address
  nblocks := 1
  buffer := fun _ => 255
  address_range := h
  nblocks_range := ⟨by decide, by decide⟩

theorem placed_ones {a : Nat} (h : Int32Range a) (ha : a < 2000) (d : Disk 1024 2000) {op : Op}
    (hop : op.request = ones a h) : Placed d op := by
  refine Or.inr ?_
  rw [hop]
  refine ⟨⟨Int.natCast_nonneg a, ?_⟩, fun i hi => ?_, Or.inr (Or.inl ?_)⟩
  · show (a : Int) + (1 : Nat) ≤ (2000 : Nat)
    omega
  · have : i < 1 := hi
    omega
  · show (a : Int) * (1024 : Nat) < _
    omega

/-- A write of ones that is not refused. -/
theorem exec_ones {a : Int} (h : Int32Range a) {d d' : Disk 1024 2000}
    (hwrite : d.writeBlocks a (1 : Nat) (fun _ => 255) = (1, d')) :
    Op.exec (.write (ones a h)) d = some (1, fun _ => 255, d') := by
  have haddr : Addressable 1024 (ones a h) := by
    intro i hi
    have : i < 1 := hi
    omega
  unfold Op.exec
  rw [if_neg fun hboth => hboth.2 haddr]
  dsimp only [ones]
  rw [hwrite]

theorem writeBlocks_answers {buf : Mem} {d : Disk B M} {a n : Nat} (hB : 0 < B)
    (hM : B * M < 2147483648) (h : a + n ≤ M) :
    d.writeBlocks a n buf = ((n : Int), (d.writeBlocks a n buf).2) := by
  rw [writeBlocks_eq hB hM h]

/-- Ones in one block of a fresh disk. -/
theorem exists_onesAt {a : Nat} (h : Int32Range a) (ha : a < 2000) :
    ∃ d, Op.exec (.write (ones a h)) (initFreshDisk 1024 2000) = some (1, fun _ => 255, d) ∧
      d.pos = (a + 1) * 1024 ∧ ∀ b < 2000, b ≠ a → d.block b = fun _ => 0 := by
  refine ⟨_, exec_ones h (writeBlocks_answers (by decide) (by decide) ha),
    writeBlocks_pos (by decide) (by decide) ha, ?_⟩
  intro b hb hne
  rw [writeBlocks_block _ (by decide) (by decide) ha hb, if_neg (by omega)]
  rfl

theorem requests_inPlace_ones :
    ∃ d, Op.exec (.write (ones (7 : Nat) ⟨by decide, by decide⟩)) (initFreshDisk 1024 2000) =
        some (1, fun _ => 255, d) ∧
      ∃ ret buffer d', Op.exec (.read (fun _ => 0) (ones (7 : Nat) ⟨by decide, by decide⟩)) d =
          some (ret, buffer, d') ∧
        InPlace [(.write (ones (7 : Nat) ⟨by decide, by decide⟩), 1)]
          (.read (fun _ => 0) (ones (7 : Nat) ⟨by decide, by decide⟩)) d ret buffer d' := by
  obtain ⟨d, hexec, -⟩ := exists_onesAt (a := 7) ⟨by decide, by decide⟩ (by decide)
  exact ⟨d, hexec, requests_inPlace (by decide) ⟨by decide, by decide⟩
    (.step (.start rfl) ⟨placed_ones _ (by decide) _ rfl, _, hexec⟩)
    (placed_ones _ (by decide) _ rfl)⟩

/-- The seek to block -1 fails, and after a write of block 0 the ones go to
block 1. -/
theorem block_overwritten_from_behind :
    ∃ d d' : Disk 1024 2000,
      (requests 1024 2000).Run [(.write (ones (0 : Nat) ⟨by decide, by decide⟩), 1)] d ∧
      Op.exec (.write (ones (-1) ⟨by decide, by decide⟩)) d = some (1, fun _ => 255, d') ∧
      d.block 1 = (fun _ => 0) ∧ d'.block 1 = (fun _ => 255) ∧
      ¬ InPlace [(.write (ones (0 : Nat) ⟨by decide, by decide⟩), 1)]
          (.write (ones (-1) ⟨by decide, by decide⟩)) d 1 (fun _ => 255) d' := by
  obtain ⟨d, hexec, hpos, hblock⟩ :=
    exists_onesAt (a := 0) ⟨by decide, by decide⟩ (by decide)
  have hneg : d.writeBlocks (-1) 1 (fun _ => 255) = (1, d.fwrite fun _ => 255) :=
    writeBlocks_neg (by decide) (by decide) (by decide)
  refine ⟨d, _, .step (.start rfl) ⟨_, hexec⟩, exec_ones _ hneg,
    hblock 1 (by decide) (by decide), ?_, fun h => ?_⟩
  · rw [fwrite_block hpos (by decide), if_pos rfl]
  · rcases h.answered with ⟨hret, -⟩ | ⟨-, hwithin, -⟩
    · exact absurd hret (by decide)
    · exact absurd hwithin (by decide)

end OsConcepts.Disk
