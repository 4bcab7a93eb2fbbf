import QemuAndroid.Block.Io

/-!
# Requests for whole blocks

The device is an array of bytes that is zero from its end on (`BlockState.content`).  A read of
whole blocks returns a slice of it.  A write overwrites one, unless it is a write of zeroes that
`bdrv_co_do_write_zeroes` cuts inside a block.
-/

namespace QemuAndroid.Block

open Lib Util List Nat BlockConfig Driver

variable {cfg : BlockConfig} {bs bs' : BlockState} {mem : Buffer} {offset bytes i : Nat}
variable {qiov : List IoVec} {flags : RequestFlags} {req : TrackedRequest} {d : Driver}

/-! ## Arrays of bytes -/

/-- The bytes of an array, as the driver and the block layer see it. -/
def Driver.content (d : Driver) (p : Nat) : UInt8 := if p < 512 * d.sectors then d.disk p else 0

def BlockState.content (bs : BlockState) : Nat → UInt8 := bs.driver.content

/-- The block layer knows the length of the driver. -/
def BlockState.Valid (cfg : BlockConfig) (bs : BlockState) : Prop :=
  bdrvNbSectors cfg bs = bs.driver.sectors

/-! ## Blocks -/

section

variable (cfg)

theorem align_pos : 0 < cfg.align :=
  lt_of_lt_of_le (by decide) (le_max_left 512 _)

/-- Blocks are made of sectors. -/
theorem dvd_align : 512 ∣ cfg.align := by
  obtain ⟨k, hk⟩ := cfg.requestAlignment_pow
  rw [align, hk]
  rcases lt_or_ge k 9 with hlt | hge
  · have hle : 2 ^ k ≤ 512 := Nat.pow_le_pow_right (by decide) (show k ≤ 9 by omega)
    exact (max_eq_left hle).symm ▸ dvd_refl 512
  · have hle : 2 ^ 9 ≤ 2 ^ k := Nat.pow_le_pow_right (by decide) hge
    exact (max_eq_right hle).symm ▸ pow_dvd_pow 2 hge

theorem align_le : cfg.align ≤ 2 ^ 30 := by
  obtain ⟨k, hk⟩ := cfg.requestAlignment_pow
  have hlt := cfg.requestAlignment_lt
  rw [align, hk]
  have hk' : k < 31 := by
    by_contra hge
    have hle : 2 ^ 31 ≤ 2 ^ k := Nat.pow_le_pow_right (by decide) (Nat.le_of_not_lt hge)
    omega
  exact Nat.max_le.2 ⟨by decide, Nat.pow_le_pow_right (by decide) (by omega)⟩

end

theorem check_of {c : Prop} [Decidable c] (h : c) (e : BlockError) : check c e = .ok () := if_pos h

@[simp] theorem ok_bind {α β : Type} (a : α) (f : α → Except BlockError β) :
    (Except.ok a >>= f) = f a := rfl

@[simp] theorem asserted_some {α : Type} (a : α) : asserted (some a) = .ok a := rfl

/-! ## Reading whole blocks -/

theorem mem_take_drop {as : List Nat} (hnodup : as.Nodup) (hi : i < as.length) (k n : Nat) :
    as[i] ∈ (as.drop k).take n ↔ k ≤ i ∧ i < k + n := by
  rw [mem_take_iff_getElem]
  constructor
  · rintro ⟨j, hj, heq⟩
    rw [getElem_drop, hnodup.getElem_inj_iff] at heq
    omega
  rintro ⟨hk, hn⟩
  have hj : i - k < min n (as.drop k).length := by
    rw [length_drop]
    omega
  refine ⟨i - k, hj, ?_⟩
  rw [getElem_drop]
  congr 1
  omega

theorem scatter_getElem {as : List Nat} {ds : List UInt8} (hnodup : as.Nodup)
    (hlen : as.length = ds.length) (mem : Buffer) (hi : i < as.length) :
    scatter as ds mem as[i] = ds[i] := by
  have h : as.map (scatter as ds mem) = ds := map_scatter hnodup hlen
  have hi' : i < (as.map (scatter as ds mem)).length := by rwa [length_map]
  rw [← getElem_map (h := hi'), getElem_of_eq h]

variable {s n : Nat} {data : List UInt8}

/-- A read of the driver, for the first sectors of a vector. -/
theorem drvReadv_spec {iov : List IoVec} (haligned : cfg.Aligned s n)
    (hnodup : (iovAddrs qiov).Nodup) (hiov : iovAddrs iov = (iovAddrs qiov).take (512 * n))
    (hsize : 512 * n ≤ iovSize qiov) (mem : Buffer) :
    (∀ i (hi : i < (iovAddrs qiov).length), i < 512 * n →
        drvReadv cfg d s n iov mem (iovAddrs qiov)[i] = d.disk (512 * s + i)) ∧
      ∀ a ∉ iovAddrs qiov, drvReadv cfg d s n iov mem a = mem a := by
  have hlen : ((iovAddrs qiov).take (512 * n)).length =
      (slice d.disk (512 * s) (512 * n)).length := by
    rw [length_take, length_iovAddrs, length_slice]
    omega
  rw [drvReadv, if_pos haligned]
  constructor
  · intro i hi hlt
    have htake : i < ((iovAddrs qiov).take (512 * n)).length := by
      rw [length_take]
      omega
    have h := scatter_getElem (hnodup.sublist (take_sublist _ _)) hlen mem htake
    rw [getElem_take, getElem_slice] at h
    rw [hiov, h]
  · intro a ha
    rw [hiov]
    exact scatter_of_notMem fun hmem => ha (mem_of_mem_take hmem)

/-- `bdrv_aligned_preadv` reads the bytes of the device. -/
theorem bdrvAlignedPreadv_spec (heof : cfg.zeroBeyondEof = true) (hvalid : bs.Valid cfg)
    (hoffset : cfg.align ∣ offset) (hbytes : cfg.align ∣ bytes) (hsize : iovSize qiov = bytes)
    (hnodup : (iovAddrs qiov).Nodup) (mem : Buffer) :
    ∃ mem', bdrvAlignedPreadv cfg bs offset bytes qiov mem = .ok mem' ∧
      gather qiov mem' = slice bs.content offset bytes ∧ ∀ a ∉ iovAddrs qiov, mem' a = mem a := by
  obtain ⟨s, rfl⟩ := dvd_trans (dvd_align cfg) hoffset
  obtain ⟨n, rfl⟩ := dvd_trans (dvd_align cfg) hbytes
  obtain ⟨A, hA⟩ := dvd_align cfg
  have hApos : 0 < A := by
    have hpos := align_pos cfg
    omega
  have haligned {k : Nat} (hk : cfg.align ∣ 512 * k) : cfg.Aligned s k := ⟨hoffset, hk⟩
  obtain ⟨T, hsectors⟩ : ∃ T, bs.driver.sectors = T := ⟨_, rfl⟩
  have hT : bdrvNbSectors cfg bs = T := Eq.trans hvalid hsectors
  obtain ⟨M, hM⟩ : ∃ M, roundUp (T - s) A = M := ⟨_, rfl⟩
  have hMle : T - s ≤ M := hM ▸ le_roundUp _ hApos
  have hMdvd : cfg.align ∣ 512 * M := by
    rw [hA, ← hM]
    exact mul_dvd_mul_left 512 (dvd_roundUp _ _)
  have hlen : (iovAddrs qiov).length = 512 * n := length_iovAddrs.trans hsize
  -- the read of what the driver has
  have hread : ∃ mem₁, readUntilEof cfg bs s n M qiov mem = .ok mem₁ ∧
      (∀ i (hi : i < (iovAddrs qiov).length), i < 512 * (T - s) →
        mem₁ (iovAddrs qiov)[i] = bs.driver.disk (512 * s + i)) ∧
      ∀ a ∉ iovAddrs qiov, mem₁ a = mem a := by
    rw [readUntilEof]
    split
    · next hlt =>
      obtain ⟨hget, hframe⟩ := drvReadv_spec (d := bs.driver) (haligned hbytes) hnodup
        (take_of_length_le (le_of_eq hlen)).symm (le_of_eq hsize.symm) mem
      exact ⟨_, rfl, fun i hi _ => hget i hi (hlen ▸ hi), hframe⟩
    · next hge =>
      split
      · next hpos =>
        obtain ⟨iov, hiov, haddrs⟩ := qemuIovecConcat_spec [] (zero_le (iovSize qiov)) (M * 512)
        rw [mul_comm] at haddrs
        obtain ⟨hget, hframe⟩ := drvReadv_spec (d := bs.driver) (haligned hMdvd) hnodup
          haddrs (by omega) mem
        rw [hiov]
        exact ⟨_, rfl, fun i hi hlt => hget i hi (by omega), hframe⟩
      · next hzero => exact ⟨mem, rfl, fun i hi hlt => by omega, fun a _ => rfl⟩
  obtain ⟨mem₁, hmem₁, hget₁, hframe₁⟩ := hread
  -- the zeroes after the end
  have hzero : ∃ mem', zeroAfterEof T s n qiov mem₁ = .ok mem' ∧
      (∀ i (hi : i < (iovAddrs qiov).length), mem' (iovAddrs qiov)[i] = bs.content (512 * s + i)) ∧
      ∀ a ∉ iovAddrs qiov, mem' a = mem₁ a := by
    have hcontent (i : Nat) :
        bs.content (512 * s + i) = if i < 512 * (T - s) then bs.driver.disk (512 * s + i)
        else 0 := by
      rw [BlockState.content, content]
      congr 1
      rw [eq_iff_iff]
      omega
    rw [zeroAfterEof]
    split
    · next hlt =>
      obtain ⟨mem', hmem', hget⟩ := iovMemset_spec 0 (show (T - s) * 512 ≤ iovSize qiov by omega)
        ((s + n - (T - s)) * 512) mem₁
      refine ⟨mem', by rw [hmem', asserted_some], fun i hi => ?_, fun a ha => ?_⟩
      · rw [hget, hcontent]
        simp only [mem_take_drop hnodup hi]
        by_cases hin : i < 512 * (T - s)
        · rw [if_neg (by omega), if_pos hin, hget₁ i hi hin]
        · rw [if_pos (by omega), if_neg hin]
      · rw [hget, if_neg fun hmem => ha (mem_of_mem_drop (mem_of_mem_take hmem))]
    · next hge =>
      refine ⟨mem₁, rfl, fun i hi => ?_, fun a _ => rfl⟩
      rw [hcontent, if_pos (by omega), hget₁ i hi (by omega)]
  obtain ⟨mem', hmem', hget', hframe'⟩ := hzero
  refine ⟨mem', ?_, ?_, fun a ha => (hframe' a ha).trans (hframe₁ a ha)⟩
  · rw [bdrvAlignedPreadv, check_of ⟨mul_mod_right 512 s, mul_mod_right 512 n, hsize.symm⟩,
      heof, hT, hA, Nat.mul_div_cancel_left A (by decide), Nat.mul_div_cancel_left s (by decide),
      Nat.mul_div_cancel_left n (by decide)]
    show (readUntilEof cfg bs s n (roundUp (T - s) A) qiov mem >>= zeroAfterEof T s n qiov) = _
    rw [hM, hmem₁, ok_bind, hmem']
  · apply eq_slice (length_gather.trans hsize)
    intro i hi
    have hi' : i < (iovAddrs qiov).length := by rwa [gather, length_map] at hi
    simp only [gather, getElem_map, hget' i hi']

/-! ## Writing whole blocks -/

structure Stored (d d' : Driver) (s n : Nat) (data : List UInt8) : Prop where
  content : d'.content = overwrite d.content (512 * s) data
  sectors : d'.sectors = if n = 0 then d.sectors else max d.sectors (s + n)

/-- `Driver.store` overwrites a range of the array. -/
theorem stored_store (d : Driver) (s : Nat) (hlen : data.length = 512 * n) :
    Stored d (d.store s data) s n data := by
  have hnil : data = [] ↔ n = 0 := by
    rw [← length_eq_zero_iff]
    omega
  have hsectors : (d.store s data).sectors = if n = 0 then d.sectors
      else max d.sectors (s + n) := by
    simp only [store, hnil, hlen, Nat.mul_div_cancel_left n (show 0 < 512 by decide)]
  refine ⟨?_, hsectors⟩
  funext p
  rw [content, hsectors]
  rcases Nat.eq_zero_or_pos n with rfl | hpos
  · obtain rfl : data = [] := hnil.2 rfl
    simp only [store, overwrite_nil, ne_eq, not_true_eq_false, false_and, if_false]
    rfl
  have hne : data ≠ [] := fun h => by
    have := hnil.1 h
    omega
  rw [if_neg (show n ≠ 0 by omega)]
  simp only [store]
  -- before, in and behind the new data
  rcases lt_or_ge p (512 * s) with hlt | hge
  · rw [overwrite_of_lt hlt, overwrite_of_lt hlt, if_pos (by omega), content]
    by_cases hold : p < 512 * d.sectors
    · rw [if_neg (by omega), if_pos hold]
    · rw [if_pos ⟨hne, by omega, hlt⟩, if_neg hold]
  rcases lt_or_ge p (512 * s + data.length) with hin | hout
  · obtain ⟨i, rfl⟩ := Nat.exists_eq_add_of_le hge
    have hi : i < data.length := by omega
    rw [overwrite_add hi, overwrite_add hi, if_pos (by omega)]
  have hgap : ¬(data ≠ [] ∧ 512 * d.sectors ≤ p ∧ p < 512 * s) := fun h => by omega
  rw [overwrite_of_ge hout, overwrite_of_ge hout, if_neg hgap]
  congr 1
  rw [eq_iff_iff]
  omega

theorem Stored.trans {d d' d'' : Driver} {n' : Nat} {data' : List UInt8} (h : Stored d d' s n data)
    (h' : Stored d' d'' (s + n) n' data') (hlen : data.length = 512 * n) :
    Stored d d'' s (n + n') (data ++ data') where
  content := by
    rw [h'.content, h.content, overwrite_append, hlen, mul_add]
  sectors := by
    rw [h'.sectors, h.sectors]
    split <;> split <;> split <;> omega

/-! ### Zeroes -/

/-- A limit cuts no range of `n` sectors inside of a block. -/
def BlockConfig.KeepsBlocks (cfg : BlockConfig) (limit n : Nat) : Prop :=
  n ≤ limit ∨ cfg.align ∣ 512 * limit

/-- The limits of zero writes leave whole blocks of a range of `n` sectors: the alignment, the
longest call, and, unless the driver supports every call, the longest write from the bounce
buffer. -/
structure BlockConfig.LimitsFit (cfg : BlockConfig) (n : Nat) : Prop where
  alignment : cfg.limits.writeZeroesAlignment = 0 ∨
    cfg.KeepsBlocks cfg.limits.writeZeroesAlignment n
  call : cfg.KeepsBlocks (minNonZero cfg.limits.maxWriteZeroes requestMaxSectors) n
  bounce : (∀ s m, cfg.zeroes s m = true) ∨ cfg.KeepsBlocks (maxXferLen cfg.limits) n

theorem minNonZero_pos {a b : Nat} (h : 0 < b) : 0 < minNonZero a b := by
  unfold minNonZero
  split <;> omega

theorem zeroPiece_pos (bl : BlockLimits) (s : Nat) (h : 0 < n) : 0 < zeroPiece bl s n := by
  have hmax : 0 < minNonZero bl.maxWriteZeroes requestMaxSectors := minNonZero_pos (by decide)
  refine Nat.lt_min.2 ⟨?_, hmax⟩
  split
  · next hwza =>
    have hs := mod_lt s (Nat.pos_of_ne_zero hwza.1)
    have hsn := mod_lt (s + n) (Nat.pos_of_ne_zero hwza.1)
    split
    · omega
    · split <;> omega
  · exact h

theorem zeroPiece_le (bl : BlockLimits) (s n : Nat) : zeroPiece bl s n ≤ n := by
  refine le_trans (min_le_left _ _) ?_
  split
  · split
    · omega
    · split <;> omega
  · exact Nat.le_refl n

theorem maxXferLen_pos (bl : BlockLimits) : 0 < maxXferLen bl := minNonZero_pos (by decide)

theorem BlockConfig.KeepsBlocks.mono {limit m : Nat} (h : cfg.KeepsBlocks limit n) (hle : m ≤ n) :
    cfg.KeepsBlocks limit m := h.imp_left hle.trans

theorem BlockConfig.LimitsFit.mono {m : Nat} (h : cfg.LimitsFit n) (hle : m ≤ n) :
    cfg.LimitsFit m :=
  ⟨h.alignment.imp_right (·.mono hle), h.call.mono hle, h.bounce.imp_right (·.mono hle)⟩

/-- What such a limit leaves of whole blocks are whole blocks. -/
theorem BlockConfig.KeepsBlocks.min {limit num : Nat} (h : cfg.KeepsBlocks limit n)
    (hle : num ≤ n) (hnum : cfg.align ∣ 512 * num) : cfg.align ∣ 512 * Min.min num limit := by
  rcases Nat.le_total num limit with hmin | hmin
  · rwa [min_eq_left hmin]
  rw [min_eq_right hmin]
  rcases h with hlimit | hdvd
  · rwa [le_antisymm (hle.trans hlimit) hmin] at hnum
  · exact hdvd

theorem dvd_zeroPiece (hfit : cfg.LimitsFit n) (h : cfg.Aligned s n) :
    cfg.align ∣ 512 * zeroPiece cfg.limits s n := by
  refine hfit.call.min ?_ ?_
  · split
    · split
      · omega
      · split <;> omega
    · exact Nat.le_refl n
  split
  · next hwza =>
    have hdvd := (hfit.alignment.resolve_left hwza.1).resolve_left (Nat.not_le.2 hwza.2)
    split
    · rw [Nat.mul_sub, ← mul_mod_mul_left]
      exact Nat.dvd_sub hdvd ((dvd_mod_iff hdvd).2 h.1)
    · split
      · rw [Nat.mul_sub, ← mul_mod_mul_left]
        exact Nat.dvd_sub h.2 ((dvd_mod_iff hdvd).2 (Nat.mul_add .. ▸ Nat.dvd_add h.1 h.2))
      · exact h.2
  · exact h.2

/-- One call for whole blocks, and then the rest. -/
theorem Stored.zeroes {d' : Driver} {k : Nat} (hk : cfg.Aligned s k) (hle : k ≤ n)
    (h : Stored (drvWritev cfg d s k (List.replicate (512 * k) 0)) d' (s + k) (n - k)
      (List.replicate (512 * (n - k)) 0)) : Stored d d' s n (List.replicate (512 * n) 0) := by
  have hlen : (replicate (512 * k) (0 : UInt8)).length = 512 * k := length_replicate
  rw [drvWritev, if_pos hk] at h
  have hrest := (stored_store d s hlen).trans h hlen
  rwa [replicate_append_replicate, ← mul_add, Nat.add_sub_cancel' hle] at hrest

/-- What is left behind whole blocks are whole blocks. -/
theorem BlockConfig.Aligned.rest {k : Nat} (h : cfg.Aligned s n) (hk : cfg.align ∣ 512 * k) :
    cfg.Aligned (s + k) (n - k) :=
  ⟨mul_add 512 s k ▸ Nat.dvd_add h.1 hk, Nat.mul_sub 512 n k ▸ Nat.dvd_sub h.2 hk⟩

/-- `bdrv_co_do_write_zeroes` zeroes its range when the limits leave whole blocks. -/
theorem bdrvCoDoWriteZeroes_spec {fuel : Nat} (d : Driver) {buf : Option Nat} (hfuel : n ≤ fuel)
    (hfit : cfg.LimitsFit n) (h : cfg.Aligned s n) :
    Stored d (bdrvCoDoWriteZeroes cfg fuel d s n buf).1 s n (List.replicate (512 * n) 0) := by
  fun_induction bdrvCoDoWriteZeroes cfg fuel d s n buf with
  | case1 =>
    obtain rfl := le_zero.1 hfuel
    exact ⟨(overwrite_nil _ _).symm, rfl⟩
  | case2 =>
    exact ⟨(overwrite_nil _ _).symm, rfl⟩
  | case3 fuel d s n buf hn num hz r ih =>
    have hpos : 0 < num := zeroPiece_pos cfg.limits s (Nat.pos_of_ne_zero hn)
    have hdvd := dvd_zeroPiece hfit h
    exact .zeroes ⟨h.1, hdvd⟩ (zeroPiece_le _ _ _)
      (ih (by omega) (hfit.mono (sub_le _ _)) (h.rest hdvd))
  | case4 fuel d s n buf hn piece hz num len d' r ih =>
    have hle : piece ≤ n := zeroPiece_le _ _ _
    have hpos : 0 < num :=
      Nat.lt_min.2 ⟨zeroPiece_pos _ s (Nat.pos_of_ne_zero hn), maxXferLen_pos _⟩
    have hdvd : cfg.align ∣ 512 * num := by
      refine (hfit.bounce.resolve_left fun hall => ?_).min hle (dvd_zeroPiece hfit h)
      exact hz (hall _ _)
    exact .zeroes ⟨h.1, hdvd⟩ ((min_le_left _ _).trans hle)
      (ih (by omega) (hfit.mono (sub_le _ _)) (h.rest hdvd))

/-! ### The aligned write -/

/-- A request succeeds and overwrites a range of the device. -/
def Overwrites (cfg : BlockConfig) (bs : BlockState) (r : Except BlockError BlockState)
    (offset : Nat) (data : List UInt8) : Prop :=
  ∃ bs', r = .ok bs' ∧ bs'.Valid cfg ∧ bs'.content = overwrite bs.content offset data

/-- Writes of data may become writes of zeroes. -/
def BlockConfig.DetectsZeroes (cfg : BlockConfig) : Prop :=
  cfg.detectZeroes ≠ .off ∧ cfg.writeZeroes.isSome
deriving Decidable

section

variable (hvalid : bs.Valid cfg)
include hvalid

/-- The block layer follows the driver's length. -/
theorem valid_of_stored {d' : Driver} (hstored : Stored bs.driver d' s n data)
    (hend : n = 0 → s ≤ bs.driver.sectors) :
    BlockState.Valid cfg ⟨d', max bs.totalSectors (s + n)⟩ := by
  unfold BlockState.Valid bdrvNbSectors at *
  split
  · rfl
  · next hfixed =>
    rw [if_neg hfixed] at hvalid
    rw [hstored.sectors, hvalid]
    split
    · next hn => rw [hn, add_zero, max_eq_left (hend hn)]
    · rfl

theorem bdrvAlignedPwritev_of_stored {q : Option (List IoVec)} {e : Driver}
    (hsize : ∀ v ∈ q, 512 * n = iovSize v) (hcover : req.Covers (512 * s) (512 * n))
    (hend : n = 0 → s ≤ bs.driver.sectors)
    (hwrite : writeDriver cfg bs.driver s n q (detectZeroes cfg flags q mem) mem = .ok e)
    (hstored : Stored bs.driver e s n data) :
    Overwrites cfg bs (bdrvAlignedPwritev cfg bs req (512 * s) (512 * n) q flags mem) (512 * s)
      data := by
  refine ⟨⟨e, max bs.totalSectors (s + n)⟩, ?_, valid_of_stored hvalid hstored hend,
    hstored.content⟩
  rw [bdrvAlignedPwritev, check_of ⟨mul_mod_right 512 s, mul_mod_right 512 n, hsize⟩,
    check_of (And.intro hcover.1 hcover.2)]
  simp only [Nat.mul_div_cancel_left _ (show 0 < 512 by decide)]
  rw [hwrite]
  rfl

/-- `bdrv_aligned_pwritev` of data, which may be found to be zeroes. -/
theorem bdrvAlignedPwritev_data (hflags : flags.zeroWrite = false) (hoffset : cfg.align ∣ offset)
    (hbytes : cfg.align ∣ bytes) (hsize : iovSize qiov = bytes) (hcover : req.Covers offset bytes)
    (hend : bytes = 0 → offset ≤ 512 * bs.driver.sectors)
    (hfit : cfg.DetectsZeroes → cfg.LimitsFit (bytes / 512)) :
    Overwrites cfg bs (bdrvAlignedPwritev cfg bs req offset bytes (some qiov) flags mem) offset
      (gather qiov mem) := by
  have hsector : 0 < 512 := by decide
  obtain ⟨s, rfl⟩ := dvd_trans (dvd_align cfg) hoffset
  obtain ⟨n, rfl⟩ := dvd_trans (dvd_align cfg) hbytes
  rw [Nat.mul_div_cancel_left _ hsector] at hfit
  have hlen : (gather qiov mem).length = 512 * n := length_gather.trans hsize
  have hsizes : ∀ v ∈ some qiov, 512 * n = iovSize v := by
    rintro v ⟨⟩
    exact hsize.symm
  have hend' : n = 0 → s ≤ bs.driver.sectors := by
    omega
  by_cases hdetect : cfg.detectZeroes ≠ .off ∧ !flags.zeroWrite ∧ cfg.writeZeroes.isSome ∧
      qemuIovecIsZero qiov mem
  · -- the data is found to be zeroes
    have hzero : gather qiov mem = replicate (512 * n) 0 :=
      eq_replicate_iff.2 ⟨hlen, qemuIovecIsZero_iff.1 hdetect.2.2.2⟩
    refine bdrvAlignedPwritev_of_stored (e := (bdrvCoDoWriteZeroes cfg n bs.driver s n none).1)
      hvalid hsizes hcover hend' ?_ ?_
    · rw [detectZeroes, if_pos hdetect, writeDriver, if_pos rfl]
    · rw [hzero]
      exact bdrvCoDoWriteZeroes_spec _ (Nat.le_refl n) (hfit ⟨hdetect.1, hdetect.2.2.1⟩)
        ⟨hoffset, hbytes⟩
  refine bdrvAlignedPwritev_of_stored (e := bs.driver.store s (gather qiov mem)) hvalid hsizes
    hcover hend' ?_ (stored_store _ _ hlen)
  have haligned : cfg.Aligned s n := ⟨hoffset, hbytes⟩
  have hkept : detectZeroes cfg flags (some qiov) mem = flags := if_neg hdetect
  rw [hkept, writeDriver, hflags, if_neg Bool.false_ne_true]
  rw [drvWritev, if_pos haligned]

theorem bdrvAlignedPwritev_zeroes (hflags : flags.zeroWrite = true) (hoffset : cfg.align ∣ offset)
    (hbytes : cfg.align ∣ bytes) (hpos : bytes ≠ 0) (hcover : req.Covers offset bytes)
    (hfit : cfg.LimitsFit (bytes / 512)) :
    Overwrites cfg bs (bdrvAlignedPwritev cfg bs req offset bytes none flags mem) offset
      (List.replicate bytes 0) := by
  have hsector : 0 < 512 := by decide
  obtain ⟨s, rfl⟩ := Nat.dvd_trans (dvd_align cfg) hoffset
  obtain ⟨n, rfl⟩ := Nat.dvd_trans (dvd_align cfg) hbytes
  rw [Nat.mul_div_cancel_left _ hsector] at hfit
  refine bdrvAlignedPwritev_of_stored (e := (bdrvCoDoWriteZeroes cfg n bs.driver s n none).1) hvalid
    ?_ hcover (fun hn => absurd (by rw [hn]) hpos) ?_ ?_
  · rintro v ⟨⟩
  · rw [detectZeroes, writeDriver, if_pos hflags]
  · exact bdrvCoDoWriteZeroes_spec _ (Nat.le_refl n) hfit ⟨hoffset, hbytes⟩

end

end QemuAndroid.Block
