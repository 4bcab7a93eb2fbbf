import QemuAndroid.Block.Aligned

/-!
# The block layer as a byte array

A write overwrites a range of the device and a read returns one, for any offset and any number of
bytes: the padding to whole blocks cannot be seen.
-/

namespace QemuAndroid.Block

open Lib Util List Nat

variable {cfg : BlockConfig} {bs bs' : BlockState} {mem : Buffer} {offset bytes o n : Nat}
variable {qiov : List IoVec} {flags : RequestFlags} {req : TrackedRequest} {bufs : PadBuffers}

/-! ## Padding a vector -/

/-- The padding buffers are new: they overlap neither each other nor the caller's vector. -/
structure PadBuffers.Fresh (bufs : PadBuffers) (align : Nat) (qiov : List IoVec) : Prop where
  head_tail : (List.range' bufs.head align).Disjoint (List.range' bufs.tail align)
  head : (List.range' bufs.head align).Disjoint (iovAddrs qiov)
  tail : (List.range' bufs.tail align).Disjoint (iovAddrs qiov)

/-- The largest request that `bdrv_check_byte_request` accepts can be padded. -/
theorem padded_lt (cfg : BlockConfig) (h : bytes ≤ 512 * requestMaxSectors) :
    bytes + cfg.align + cfg.align < 2 ^ 32 := by
  have halign := align_le cfg
  have hmax : 512 * requestMaxSectors = 2 ^ 31 - 512 := by decide
  omega

theorem concat_ok (dst src : List IoVec) :
    ∃ iov, asserted (qemuIovecConcat dst src 0 (iovSize src)) = .ok iov ∧
      iovAddrs iov = iovAddrs dst ++ iovAddrs src := by
  obtain ⟨iov, hiov, haddrs⟩ := qemuIovecConcat_spec dst (zero_le (iovSize src)) (iovSize src)
  refine ⟨iov, by rw [hiov, asserted_some], ?_⟩
  rw [haddrs, drop_zero, take_of_length_le (le_of_eq length_iovAddrs)]

theorem localQiov_spec (useLocalQiov : Bool) (qiov : List IoVec) :
    ∃ iov, localQiov useLocalQiov qiov = .ok iov ∧ iovAddrs iov = iovAddrs qiov := by
  unfold localQiov
  split
  · exact ⟨qiov, rfl, rfl⟩
  · exact concat_ok [] qiov

theorem iovAddrs_single (base len : Nat) : iovAddrs [⟨base, len⟩] = List.range' base len :=
  append_nil _

theorem gather_eq (qiov : List IoVec) (mem : Buffer) :
    gather qiov mem = (iovAddrs qiov).map mem := rfl

theorem gather_single (base len : Nat) (mem : Buffer) :
    gather [⟨base, len⟩] mem = slice mem base len := by
  rw [gather, iovAddrs_single, slice]

/-- A list of addresses in a buffer of one block. -/
theorem range'_subset {base k m : Nat} (h : k + m ≤ n) :
    List.range' (base + k) m ⊆ List.range' base n := by
  intro a ha
  rw [mem_range'_1] at ha ⊢
  omega

def Accepted (cfg : BlockConfig) (bytes : Nat) : Prop :=
  bytes ≤ 512 * requestMaxSectors ∧ cfg.inserted = true

theorem bdrvCheckByteRequest_of (h : Accepted cfg bytes) :
    bdrvCheckByteRequest cfg bytes = .ok () := by
  rw [bdrvCheckByteRequest, if_neg (not_lt.2 h.1), h.2]
  rfl

def TrackedRequest.CoversBlocks (req : TrackedRequest) (align offset bytes : Nat) : Prop :=
  req.Covers (alignDown offset align) (roundUp (offset + bytes) align - alignDown offset align)

theorem blocks_lt (cfg : BlockConfig) (offset : Nat)
    (hsmall : bytes + cfg.align + cfg.align < 2 ^ 32) :
    roundUp (offset + bytes) cfg.align - alignDown offset cfg.align < 2 ^ 32 := by
  have hlt := roundUp_lt (offset + bytes) (align_pos cfg)
  have hmod := mod_lt offset (align_pos cfg)
  have hsum := alignDown_add_mod offset cfg.align
  omega

theorem coversBlocks_of_dvd (hreq : req.For cfg.align offset bytes) (hoffset : cfg.align ∣ offset)
    (hend : cfg.align ∣ offset + bytes) : req.CoversBlocks cfg.align offset bytes := by
  rw [TrackedRequest.CoversBlocks, alignDown_of_dvd hoffset, roundUp_of_dvd (align_pos cfg) hend,
    Nat.add_sub_cancel_left]
  exact hreq.covers

theorem slice_memset (mem : Buffer) (buf : Nat) {k z : Nat} (h : k + z ≤ n) :
    slice (memset mem (buf + k) 0 z) buf n =
      slice mem buf k ++ List.replicate z 0 ++ slice mem (buf + k + z) (n - (k + z)) := by
  obtain ⟨t, rfl⟩ := Nat.exists_eq_add_of_le h
  rw [Nat.add_sub_cancel_left, slice_add, slice_add, add_assoc buf k z]
  congr 1
  · congr 1
    · exact slice_congr fun i hi => if_neg (by omega)
    refine (eq_replicate_iff.2 ⟨length_slice _ _ _, ?_⟩)
    intro b hb
    obtain ⟨a, ha, rfl⟩ := mem_map.1 hb
    rw [mem_range'_1] at ha
    exact if_pos ha
  · exact slice_congr fun i hi => if_neg (by omega)

/-- The bytes that are zeroed in the first block, if the request does not start with it. -/
def headBytes (align offset bytes : Nat) : Nat :=
  if offset % align = 0 then 0 else min bytes (align - offset % align)

theorem headBytes_le (align offset bytes : Nat) : headBytes align offset bytes ≤ bytes := by
  unfold headBytes
  split
  · exact zero_le bytes
  · exact min_le_left _ _

/-- What is left behind the head starts with a block. -/
theorem headBytes_spec {align offset bytes : Nat} (hpos : 0 < align)
    (h : headBytes align offset bytes < bytes) :
    offset + headBytes align offset bytes = roundUp offset align := by
  unfold headBytes at h ⊢
  split
  · next hzero => rw [roundUp_of_dvd hpos (dvd_of_mod_eq_zero hzero), add_zero]
  · next hne =>
    rw [if_neg hne] at h
    have hsub := roundUp_sub hpos hne
    have hle := le_roundUp offset hpos
    omega

/-- A block that a write of zeroes covers in part can be written as zeroes, if it may be. -/
def BlockConfig.BlockFits (cfg : BlockConfig) (p : Nat) : Prop :=
  cfg.DetectsZeroes → p % cfg.align ≠ 0 → cfg.LimitsFit (cfg.align / 512)

/-! ## Reading -/

theorem readHead_spec (cfg : BlockConfig) (offset : Nat) (qiov : List IoVec) (bufs : PadBuffers)
    (hsmall : bytes + cfg.align + cfg.align < 2 ^ 32) :
    ∃ iov u, readHead cfg offset bytes qiov bufs =
        .ok (iov, u, alignDown offset cfg.align, bytes + offset % cfg.align) ∧
      iovAddrs iov = List.range' bufs.head (offset % cfg.align) ++ iovAddrs qiov := by
  have hlt := mod_lt offset (align_pos cfg)
  rw [readHead]
  split
  · obtain ⟨iov, hiov, haddrs⟩ := concat_ok [⟨bufs.head, offset % cfg.align⟩] qiov
    rw [iovAddrs_single] at haddrs
    refine ⟨iov, true, ?_, haddrs⟩
    rw [hiov, ok_bind, mod_eq_of_lt (show bytes + offset % cfg.align < 2 ^ 32 by omega)]
  · next hzero =>
    rw [Decidable.not_not] at hzero
    refine ⟨qiov, false, ?_, ?_⟩
    · rw [alignDown, hzero]
      rfl
    · rw [hzero]
      rfl

theorem readTail_spec (hoffset : cfg.align ∣ offset) (qiov : List IoVec) (u : Bool)
    (bufs : PadBuffers) (hsmall : bytes + cfg.align < 2 ^ 32) :
    ∃ iov, readTail cfg offset bytes qiov u bufs = .ok (iov, roundUp bytes cfg.align) ∧
      iovAddrs iov = iovAddrs qiov ++ List.range' bufs.tail (roundUp bytes cfg.align - bytes) := by
  have hlt := roundUp_lt bytes (align_pos cfg)
  rw [readTail, add_mod_of_dvd hoffset]
  split
  · next hne =>
    obtain ⟨iov, hiov, haddrs⟩ := localQiov_spec u qiov
    refine ⟨iov ++ [⟨bufs.tail, cfg.align - bytes % cfg.align⟩], ?_, ?_⟩
    · rw [hiov, ok_bind, mod_eq_of_lt (show roundUp bytes cfg.align < 2 ^ 32 by omega)]
    · rw [iovAddrs_append, haddrs, iovAddrs_single, roundUp_sub (align_pos cfg) hne]
  · next hzero =>
    rw [Decidable.not_not] at hzero
    have hround : roundUp bytes cfg.align = bytes :=
      roundUp_of_dvd (align_pos cfg) (dvd_of_mod_eq_zero hzero)
    refine ⟨qiov, by rw [hround], ?_⟩
    rw [hround, Nat.sub_self]
    exact (append_nil _).symm

section Requests

variable (heof : cfg.zeroBeyondEof = true) (hvalid : bs.Valid cfg)

include heof hvalid

/-- `bdrv_co_do_preadv` reads a range of the device. -/
theorem bdrvCoDoPreadv_spec (haccepted : Accepted cfg (iovSize qiov))
    (hnodup : (iovAddrs qiov).Nodup) (hfresh : bufs.Fresh cfg.align qiov) (offset : Nat)
    (mem : Buffer) : ∃ mem', bdrvCoDoPreadv cfg bs offset (iovSize qiov) qiov bufs mem = .ok mem' ∧
      gather qiov mem' = slice bs.content offset (iovSize qiov) := by
  have hpos := align_pos cfg
  have hlt := mod_lt offset hpos
  have hpad := padded_lt cfg haccepted.1
  obtain ⟨iov, u, hhead, haddrs⟩ := readHead_spec cfg offset qiov bufs hpad
  generalize hh : offset % cfg.align = h at hhead haddrs hlt
  have hsum : alignDown offset cfg.align + h = offset := hh ▸ alignDown_add_mod offset cfg.align
  obtain ⟨iov', htail, haddrs'⟩ := readTail_spec (dvd_alignDown offset cfg.align) iov u bufs
    (show iovSize qiov + h + cfg.align < 2 ^ 32 by omega)
  have hle := le_roundUp (iovSize qiov + h) hpos
  have hlt' := roundUp_lt (iovSize qiov + h) hpos
  obtain ⟨t, ht⟩ := Nat.exists_eq_add_of_le hle
  rw [ht, Nat.add_sub_cancel_left, haddrs, append_assoc] at haddrs'
  -- the padding comes from the two buffers
  have hheadsub : range' bufs.head h ⊆ range' bufs.head cfg.align :=
    range'_subset (k := 0) (by omega)
  have htailsub : range' bufs.tail t ⊆ range' bufs.tail cfg.align :=
    range'_subset (k := 0) (by omega)
  have hnodup' : (iovAddrs iov').Nodup := by
    rw [haddrs']
    refine (nodup_range').append (hnodup.append nodup_range' ?_) ?_
    · exact fun a ha ht => hfresh.tail (htailsub ht) ha
    intro a ha hmem
    rcases mem_append.1 hmem with hq | ht
    · exact hfresh.head (hheadsub ha) hq
    · exact hfresh.head_tail (hheadsub ha) (htailsub ht)
  have hsize : iovSize iov' = roundUp (iovSize qiov + h) cfg.align := by
    rw [← length_iovAddrs, haddrs', length_append, length_append, length_range',
      length_range', length_iovAddrs]
    omega
  obtain ⟨mem', hread, hgather, -⟩ := bdrvAlignedPreadv_spec heof hvalid
    (dvd_alignDown offset cfg.align) (dvd_roundUp _ _) hsize hnodup' mem
  refine ⟨mem', ?_, ?_⟩
  · rw [bdrvCoDoPreadv, bdrvCheckByteRequest_of haccepted, hhead]
    show (readTail cfg _ _ iov u bufs >>= _) = _
    rw [htail]
    exact hread
  have hcount : iovSize qiov + h + t = h + (iovSize qiov + t) := by omega
  rw [gather_eq, haddrs', map_append, map_append, ht, hcount, slice_add, slice_add,
    hsum] at hgather
  have hlen : ((range' bufs.head h).map mem').length =
      (slice bs.content (alignDown offset cfg.align) h).length := by
    rw [length_map, length_range', length_slice]
  have hmid := append_inj_right hgather hlen
  refine append_inj_left hmid ?_
  rw [length_gather, length_slice]

/-! ## Writing data -/

theorem readBlock_spec (ho : cfg.align ∣ o) (buf : Nat) (mem : Buffer) :
    ∃ mem', bdrvAlignedPreadv cfg bs o cfg.align [⟨buf, cfg.align⟩] mem = .ok mem' ∧
      slice mem' buf cfg.align = slice bs.content o cfg.align ∧
      ∀ a ∉ List.range' buf cfg.align, mem' a = mem a := by
  have hnodup : (iovAddrs [⟨buf, cfg.align⟩]).Nodup := by
    rw [iovAddrs_single]
    exact nodup_range'
  have hsize : iovSize [⟨buf, cfg.align⟩] = cfg.align := add_zero _
  obtain ⟨mem', hread, hgather, hframe⟩ :=
    bdrvAlignedPreadv_spec heof hvalid ho (dvd_refl cfg.align) hsize hnodup mem
  rw [gather_single] at hgather
  rw [iovAddrs_single] at hframe
  exact ⟨mem', hread, hgather, hframe⟩

theorem writeHead_spec (hreq : req.For cfg.align offset bytes)
    (hsmall : bytes + cfg.align + cfg.align < 2 ^ 32) {h : Nat}
    (ho : alignDown offset cfg.align = o) (hh : offset % cfg.align = h) (qiov : List IoVec)
    (bufs : PadBuffers) (mem : Buffer) :
    ∃ req' mem' iov u, writeHead cfg bs offset bytes qiov req bufs mem =
        .ok (req', mem', iov, u, o, bytes + h) ∧
      iovAddrs iov = List.range' bufs.head h ++ iovAddrs qiov ∧
      slice mem' bufs.head h = slice bs.content o h ∧
      (∀ a ∉ List.range' bufs.head cfg.align, mem' a = mem a) ∧ req'.For cfg.align offset bytes ∧
      (cfg.align ∣ offset ∨ req'.CoversBlocks cfg.align offset bytes) := by
  subst ho hh
  have hlt := mod_lt offset (align_pos cfg)
  rw [writeHead]
  split
  · obtain ⟨mem', hread, hslice, hframe⟩ :=
      readBlock_spec heof hvalid (dvd_alignDown offset cfg.align) bufs.head mem
    obtain ⟨iov, hiov, haddrs⟩ := concat_ok [⟨bufs.head, offset % cfg.align⟩] qiov
    rw [iovAddrs_single] at haddrs
    refine ⟨_, mem', iov, true, ?_, haddrs, slice_part (k := 0) hslice (by omega), hframe,
      hreq.mark (align_pos cfg) (blocks_lt cfg offset hsmall),
      .inr (hreq.covers_mark (blocks_lt cfg offset hsmall))⟩
    rw [hread, ok_bind, hiov, ok_bind,
      mod_eq_of_lt (show bytes + offset % cfg.align < 2 ^ 32 by omega)]
  · next hzero =>
    rw [Decidable.not_not] at hzero
    refine ⟨req, mem, qiov, false, ?_, ?_, ?_, fun _ _ => rfl, hreq,
      .inl (dvd_of_mod_eq_zero hzero)⟩
    · rw [alignDown, hzero]
      rfl
    · rw [hzero]
      rfl
    · rw [hzero]
      rfl

theorem writeTail_spec (hreq : req.For cfg.align offset bytes)
    (hsmall : bytes + cfg.align + cfg.align < 2 ^ 32) (ho : o = alignDown offset cfg.align)
    (hn : o + n = offset + bytes)
    (hhead : cfg.align ∣ offset ∨ req.CoversBlocks cfg.align offset bytes)
    (hfresh : (List.range' bufs.tail cfg.align).Disjoint (iovAddrs qiov)) (u : Bool)
    (mem : Buffer) : ∃ req' mem' iov, writeTail cfg bs o n qiov u req bufs mem =
        .ok (req', mem', iov, roundUp n cfg.align) ∧
      gather iov mem' = gather qiov mem ++ slice bs.content (o + n) (roundUp n cfg.align - n) ∧
      req'.CoversBlocks cfg.align offset bytes := by
  have hpos := align_pos cfg
  have hdvd : cfg.align ∣ o := ho ▸ dvd_alignDown offset cfg.align
  have hmod : (o + n) % cfg.align = n % cfg.align := add_mod_of_dvd hdvd n
  rw [writeTail]
  split
  · next hne =>
    have hlt := mod_lt (o + n) hpos
    have hround : roundUp n cfg.align < 2 ^ 32 := by
      have hr := roundUp_lt n hpos
      have hsum := alignDown_add_mod offset cfg.align
      have hoff := mod_lt offset hpos
      omega
    obtain ⟨mem', hread, hslice, hframe⟩ :=
      readBlock_spec heof hvalid (dvd_alignDown (o + n) cfg.align) bufs.tail mem
    obtain ⟨iov, hiov, haddrs⟩ := localQiov_spec u qiov
    have hpart := slice_part (k := (o + n) % cfg.align) (m := cfg.align - (o + n) % cfg.align)
      hslice (by omega)
    let pad : IoVec := ⟨bufs.tail + (o + n) % cfg.align, cfg.align - (o + n) % cfg.align⟩
    refine ⟨req.markSerialising cfg.align, mem', iov ++ [pad], ?_, ?_,
      hreq.covers_mark (blocks_lt cfg offset hsmall)⟩
    · rw [hread, ok_bind, hiov, ok_bind, mod_eq_of_lt hround]
    rw [alignDown_add_mod] at hpart
    rw [gather_eq, iovAddrs_append, haddrs, map_append, iovAddrs_single,
      roundUp_sub hpos (hmod ▸ hne), ← hmod]
    congr 1
    exact map_congr_left fun a ha => hframe a fun htail => hfresh htail ha
  · next hzero =>
    rw [Decidable.not_not] at hzero
    have hround : roundUp n cfg.align = n := roundUp_of_dvd hpos (dvd_of_mod_eq_zero (hmod ▸ hzero))
    have hend : cfg.align ∣ offset + bytes := hn ▸ dvd_of_mod_eq_zero hzero
    refine ⟨req, mem, qiov, by rw [hround], ?_, ?_⟩
    · rw [hround, Nat.sub_self, slice_zero, append_nil]
    · rcases hhead with hoffset | hcovers
      · exact coversBlocks_of_dvd hreq hoffset hend
      · exact hcovers

/-- `bdrv_co_do_pwritev` of data overwrites a range of the device. -/
theorem bdrvCoDoPwritev_data (hwritable : cfg.readOnly = false)
    (haccepted : Accepted cfg (iovSize qiov)) (hflags : flags.zeroWrite = false)
    (hfresh : bufs.Fresh cfg.align qiov)
    (hend : iovSize qiov = 0 → cfg.align ∣ offset → offset ≤ 512 * bs.driver.sectors)
    (hfit : cfg.DetectsZeroes → cfg.LimitsFit
      ((roundUp (offset + iovSize qiov) cfg.align - alignDown offset cfg.align) / 512))
    (mem : Buffer) :
    Overwrites cfg bs (bdrvCoDoPwritev cfg bs offset (iovSize qiov) (some qiov) flags bufs mem)
      offset (gather qiov mem) := by
  have hpos := align_pos cfg
  have hpad := padded_lt cfg haccepted.1
  have hlt := mod_lt offset hpos
  have hsum := alignDown_add_mod offset cfg.align
  have hdvd := dvd_alignDown offset cfg.align
  -- the first block, and where the request starts in it
  generalize ho : alignDown offset cfg.align = o at hfit hsum hdvd
  generalize hh : offset % cfg.align = h at hlt hsum
  have hcount : o + (iovSize qiov + h) = offset + iovSize qiov := by omega
  obtain ⟨req₁, mem₁, iov₁, u, hhead, haddrs₁, hslice₁, hframe₁, hreq₁, hcovers₁⟩ :=
    writeHead_spec heof hvalid (trackedRequestBegin_for cfg.align offset (iovSize qiov) true) hpad
      ho hh qiov bufs mem
  have hsub : range' bufs.head h ⊆ range' bufs.head cfg.align :=
    range'_subset (k := 0) (by omega)
  have hfresh₁ : (range' bufs.tail cfg.align).Disjoint (iovAddrs iov₁) := by
    rw [haddrs₁]
    intro a ha hmem
    rcases mem_append.1 hmem with hh | hq
    · exact hfresh.head_tail (hsub hh) ha
    · exact hfresh.tail ha hq
  obtain ⟨req₂, mem₂, iov₂, htail, hgather₂, hcovers₂⟩ :=
    writeTail_spec heof hvalid hreq₁ hpad ho.symm hcount hcovers₁ hfresh₁ u mem₁
  have hgather₁ : gather iov₁ mem₁ = slice bs.content o h ++ gather qiov mem := by
    rw [gather_eq, haddrs₁, map_append]
    congr 1
    exact map_congr_left fun a ha => hframe₁ a fun hh => hfresh.head hh ha
  have hround : roundUp (offset + iovSize qiov) cfg.align - o =
      roundUp (iovSize qiov + h) cfg.align := by
    have hadd := roundUp_add hpos hdvd (iovSize qiov + h)
    rw [hcount] at hadd
    omega
  rw [TrackedRequest.CoversBlocks, ho, hround] at hcovers₂
  rw [hround] at hfit
  have hle := le_roundUp (iovSize qiov + h) hpos
  rw [hgather₁] at hgather₂
  have hsize : iovSize iov₂ = roundUp (iovSize qiov + h) cfg.align := by
    have hlen := congrArg length hgather₂
    rw [length_gather, length_append, length_append, length_slice, length_gather,
      length_slice] at hlen
    omega
  have hend₂ : roundUp (iovSize qiov + h) cfg.align = 0 → o ≤ 512 * bs.driver.sectors := by
    omega
  obtain ⟨bs', hwrite, hvalid', hcontent⟩ :=
    bdrvAlignedPwritev_data hvalid hflags hdvd (dvd_roundUp _ _) hsize hcovers₂ hend₂ hfit
  refine ⟨bs', ?_, hvalid', ?_⟩
  · rw [bdrvCoDoPwritev, check_of hwritable, bdrvCheckByteRequest_of haccepted]
    show (writeHead cfg bs offset (iovSize qiov) qiov _ bufs mem >>= _) = _
    rw [hhead]
    show (writeTail cfg bs _ _ iov₁ u req₁ bufs mem₁ >>= _) = _
    rw [htail]
    exact hwrite
  · have hbehind : o + (iovSize qiov + h) = o + h + (gather qiov mem).length := by
      rw [length_gather]
      omega
    rw [hcontent, hgather₂, hbehind, overwrite_padded, hsum]

/-! ## Writing zeroes -/

/-- A block that is read, zeroed in a part, and written back. -/
theorem zeroBlock_spec (hflags : flags.zeroWrite = false) {k z : Nat} (ho : cfg.align ∣ o)
    (hkz : k + z ≤ cfg.align) (hcovers : req.Covers o cfg.align)
    (hfit : cfg.DetectsZeroes → cfg.LimitsFit (cfg.align / 512)) (buf : Nat) (mem : Buffer) :
    ∃ mem', bdrvAlignedPreadv cfg bs o cfg.align [⟨buf, cfg.align⟩] mem = .ok mem' ∧
      Overwrites cfg bs (bdrvAlignedPwritev cfg bs req o cfg.align (some [⟨buf, cfg.align⟩]) flags
        (memset mem' (buf + k) 0 z)) (o + k) (List.replicate z 0) := by
  have hpos := align_pos cfg
  obtain ⟨mem', hread, hslice, -⟩ := readBlock_spec heof hvalid ho buf mem
  have hsize : iovSize [⟨buf, cfg.align⟩] = cfg.align := add_zero _
  have hend : cfg.align = 0 → o ≤ 512 * bs.driver.sectors := fun h => absurd h (ne_of_gt hpos)
  have hwrote : Overwrites cfg bs (bdrvAlignedPwritev cfg bs req o cfg.align
      (some [⟨buf, cfg.align⟩]) flags (memset mem' (buf + k) 0 z)) o _ :=
    bdrvAlignedPwritev_data hvalid hflags ho (dvd_refl cfg.align) hsize hcovers hend hfit
  obtain ⟨bs', hwrite, hvalid', hcontent⟩ := hwrote
  refine ⟨mem', hread, bs', hwrite, hvalid', ?_⟩
  have hbefore := slice_part (k := 0) (m := k) hslice (by omega)
  have hbehind := slice_part (k := k + z) (m := cfg.align - (k + z)) hslice (by omega)
  rw [add_zero] at hbefore
  rw [← add_assoc, ← add_assoc] at hbehind
  rw [hcontent, gather_single, slice_memset _ _ hkz, hbefore, hbehind]
  have hpadded := overwrite_padded bs.content o k (cfg.align - (k + z)) (replicate z 0)
  rwa [length_replicate] at hpadded

theorem zeroHead_spec (hreq : req.For cfg.align offset bytes)
    (hsmall : bytes + cfg.align + cfg.align < 2 ^ 32) (hfit : cfg.BlockFits offset)
    (flags : RequestFlags) (buf : Nat) (mem : Buffer) :
    ∃ bs' req' mem', zeroHead cfg bs offset bytes flags req buf mem =
        .ok (bs', req', mem', offset + headBytes cfg.align offset bytes,
          bytes - headBytes cfg.align offset bytes) ∧ bs'.Valid cfg ∧ bs'.content =
        overwrite bs.content offset (List.replicate (headBytes cfg.align offset bytes) 0) ∧
      req'.For cfg.align offset bytes := by
  have hpos := align_pos cfg
  have hlt := mod_lt offset hpos
  by_cases hzero : offset % cfg.align = 0
  · rw [zeroHead, headBytes, if_pos hzero, if_neg (not_not_intro hzero)]
    exact ⟨bs, req, mem, rfl, hvalid, (overwrite_nil _ _).symm, hreq⟩
  have hsum := alignDown_add_mod offset cfg.align
  have hle : alignDown offset cfg.align + cfg.align ≤ roundUp (offset + bytes) cfg.align :=
    alignDown_add_le_roundUp hpos (by omega)
  have hcovers : (req.markSerialising cfg.align).Covers (alignDown offset cfg.align) cfg.align :=
    (hreq.covers_mark (blocks_lt cfg offset hsmall)).mono (le_refl _) (by omega)
  have hflags : (RequestFlags.mk false flags.mayUnmap).zeroWrite = false := rfl
  have hkz : offset % cfg.align + min bytes (cfg.align - offset % cfg.align) ≤ cfg.align := by
    omega
  obtain ⟨mem', hread, bs', hwrite, hvalid', hcontent⟩ := zeroBlock_spec heof hvalid hflags
    (dvd_alignDown offset cfg.align) hkz hcovers (fun hd => hfit hd hzero) buf mem
  rw [hsum] at hcontent
  rw [zeroHead, headBytes, if_neg hzero, if_pos hzero]
  refine ⟨bs', req.markSerialising cfg.align, memset mem' (buf + offset % cfg.align) 0
    (min bytes (cfg.align - offset % cfg.align)), ?_, hvalid', hcontent,
    hreq.mark hpos (blocks_lt cfg offset hsmall)⟩
  rw [hread]
  simp only [hwrite, ok_bind]

omit heof in
theorem zeroMiddle_spec (hflags : flags.zeroWrite = true) (hoffset : bytes = 0 ∨ cfg.align ∣ offset)
    (hcovers : req.Covers offset bytes) (hfit : cfg.align ≤ bytes →
      cfg.LimitsFit (alignDown bytes cfg.align / 512)) (mem : Buffer) :
    ∃ bs', zeroMiddle cfg bs offset bytes flags req mem =
        .ok (bs', offset + alignDown bytes cfg.align, bytes % cfg.align) ∧ bs'.Valid cfg ∧
      bs'.content = overwrite bs.content offset (List.replicate (alignDown bytes cfg.align) 0) := by
  have hpos := align_pos cfg
  have hsum := alignDown_add_mod bytes cfg.align
  rw [zeroMiddle]
  split
  · next hle =>
    have hdvd : cfg.align ∣ offset := hoffset.resolve_left (by omega)
    have hne : alignDown bytes cfg.align ≠ 0 := by
      have hlt := mod_lt bytes hpos
      omega
    have hwrote : Overwrites cfg bs (bdrvAlignedPwritev cfg bs req offset
        (alignDown bytes cfg.align) none flags mem) offset _ :=
      bdrvAlignedPwritev_zeroes hvalid hflags hdvd (dvd_alignDown bytes cfg.align) hne
        (hcovers.mono (le_refl _) (by omega)) (hfit hle)
    obtain ⟨bs', hwrite, hvalid', hcontent⟩ := hwrote
    refine ⟨bs', ?_, hvalid', hcontent⟩
    simp only [hwrite, ok_bind]
    rw [show bytes - alignDown bytes cfg.align = bytes % cfg.align by omega]
  · next hlt =>
    rw [alignDown_of_lt (Nat.lt_of_not_le hlt), mod_eq_of_lt (Nat.lt_of_not_le hlt)]
    exact ⟨bs, rfl, hvalid, (overwrite_nil _ _).symm⟩

/-- What is left of a write of zeroes in its last block. -/
theorem zeroTail_spec (hreq : req.For cfg.align offset bytes)
    (hsmall : bytes + cfg.align + cfg.align < 2 ^ 32) (ho : n = 0 ∨ cfg.align ∣ o)
    (hn : n < cfg.align) (hlo : offset ≤ o) (hend : o + n = offset + bytes)
    (hfit : cfg.BlockFits (offset + bytes)) (flags : RequestFlags) (buf : Nat) (mem : Buffer) :
    Overwrites cfg bs (zeroTail cfg bs o n flags req (cfg.align - (offset + bytes) % cfg.align) buf
      mem) o (List.replicate n 0) := by
  have hpos := align_pos cfg
  by_cases hzero : n = 0
  · rw [hzero]
    exact ⟨bs, rfl, hvalid, (overwrite_nil _ _).symm⟩
  have hdvd : cfg.align ∣ o := ho.resolve_left hzero
  have hmod : (offset + bytes) % cfg.align = n := by
    rw [← hend, add_mod_of_dvd hdvd, mod_eq_of_lt hn]
  have hdown : alignDown (offset + bytes) cfg.align = o := by
    have hsum := alignDown_add_mod (offset + bytes) cfg.align
    omega
  have hup : roundUp (offset + bytes) cfg.align = o + cfg.align := by
    rw [roundUp_of_not_dvd hpos (by omega), hdown]
  have hcovers : (req.markSerialising cfg.align).Covers o cfg.align := by
    have hle := alignDown_le offset cfg.align
    exact (hreq.covers_mark (blocks_lt cfg offset hsmall)).mono (by omega) (by omega)
  have hflags : (RequestFlags.mk false flags.mayUnmap).zeroWrite = false := rfl
  obtain ⟨mem', hread, hwrote⟩ :=
    zeroBlock_spec (k := 0) (z := n) heof hvalid hflags hdvd (by omega)
      hcovers (fun hd => hfit hd (by omega)) buf mem
  rw [zeroTail, if_pos hzero, check_of (by omega), hread]
  exact hwrote

/-- `bdrv_co_do_zero_pwritev` zeroes a range of the device. -/
theorem bdrvCoDoZeroPwritev_spec (hflags : flags.zeroWrite = true)
    (hreq : req.For cfg.align offset bytes) (hsmall : bytes + cfg.align + cfg.align < 2 ^ 32)
    (hhead : cfg.BlockFits offset) (hmiddle : cfg.LimitsFit
      ((alignDown (offset + bytes) cfg.align - roundUp offset cfg.align) / 512))
    (htail : cfg.BlockFits (offset + bytes)) (buf : Nat) (mem : Buffer) :
    Overwrites cfg bs (bdrvCoDoZeroPwritev cfg bs offset bytes flags req buf mem) offset
      (List.replicate bytes 0) := by
  have hpos := align_pos cfg
  obtain ⟨bs₁, req₁, mem₁, hz, hvalid₁, hcontent₁, hreq₁⟩ :=
    zeroHead_spec heof hvalid hreq hsmall hhead flags buf mem
  have hzle := headBytes_le cfg.align offset bytes
  have hzspec := @headBytes_spec cfg.align offset bytes hpos
  generalize headBytes cfg.align offset bytes = z at hz hcontent₁ hzle hzspec
  obtain ⟨n, rfl⟩ := Nat.exists_eq_add_of_le hzle
  rw [Nat.add_sub_cancel_left] at hz
  -- behind the head
  have hup (hn : n ≠ 0) : offset + z = roundUp offset cfg.align := hzspec (by omega)
  have hdvd : n = 0 ∨ cfg.align ∣ offset + z := by
    rcases Nat.eq_zero_or_pos n with hn | hn
    · exact .inl hn
    · exact .inr (hup (ne_of_gt hn) ▸ dvd_roundUp offset cfg.align)
  have hcovers₁ : req₁.Covers (offset + z) n := hreq₁.covers.mono (le_add_right _ _) (by omega)
  have hfit₁ : cfg.align ≤ n → cfg.LimitsFit (alignDown n cfg.align / 512) := by
    intro hle
    have hstart := hup (by omega)
    have hdown := alignDown_add (hdvd.resolve_left (by omega)) n
    rw [add_assoc] at hdown
    rw [hdown, ← hstart, Nat.add_sub_cancel_left] at hmiddle
    exact hmiddle
  obtain ⟨bs₂, hm, hvalid₂, hcontent₂⟩ := zeroMiddle_spec hvalid₁ hflags hdvd hcovers₁ hfit₁ mem₁
  -- behind the whole blocks
  have hsum := alignDown_add_mod n cfg.align
  have hdvd₂ : n % cfg.align = 0 ∨ cfg.align ∣ offset + z + alignDown n cfg.align := by
    rcases hdvd with hn | hdvd
    · exact .inl (by rw [hn, zero_mod])
    · exact .inr (Nat.dvd_add hdvd (dvd_alignDown n cfg.align))
  obtain ⟨bs₃, ht, hvalid₃, hcontent₃⟩ := zeroTail_spec heof hvalid₂ hreq₁ hsmall hdvd₂
    (mod_lt n hpos) (by omega) (by omega) htail flags buf mem₁
  refine ⟨bs₃, ?_, hvalid₃, ?_⟩
  · have hassert₁ : n = 0 ∨ (offset + z) % cfg.align = 0 := hdvd.imp_right mod_eq_zero_of_dvd
    have hassert₂ : n % cfg.align = 0 ∨ (offset + z + alignDown n cfg.align) % cfg.align = 0 :=
      hdvd₂.imp_right mod_eq_zero_of_dvd
    rw [bdrvCoDoZeroPwritev, check_of hflags, ok_bind, hz, ok_bind]
    simp only []
    rw [check_of hassert₁, ok_bind, hm, ok_bind]
    rw [check_of hassert₂]
    exact ht
  · have hbytes : z + n = z + alignDown n cfg.align + n % cfg.align := by omega
    rw [hcontent₃, hcontent₂, hcontent₁, hbytes, ← replicate_append_replicate,
      ← replicate_append_replicate, overwrite_append, overwrite_append, length_append,
      length_replicate, length_replicate, add_assoc offset z]

/-! ## Sequences of requests -/

/-- A request to an array of bytes: the array after it, and the bytes read. -/
def arrayStep (c : Nat → UInt8) : BlockOp → (Nat → UInt8) × List UInt8
  | .read offset qiov _ _ => (c, slice c offset (iovSize qiov))
  | .write offset qiov _ _ mem => (overwrite c offset (gather qiov mem), [])
  | .writeZeroes offset bytes _ _ _ => (overwrite c offset (List.replicate bytes 0), [])

/-- Requests to an array of bytes, one after the other. -/
def arrayRun : (Nat → UInt8) → List BlockOp → (Nat → UInt8) × List (List UInt8)
  | c, [] => (c, [])
  | c, op :: ops =>
    ((arrayRun (arrayStep c op).1 ops).1, (arrayStep c op).2 :: (arrayRun (arrayStep c op).1 ops).2)

/-- The limits leave whole blocks of what a request may write as zeroes: of the blocks that a write
touches if zeroes are detected, of the whole blocks of a write of zeroes, and of the blocks at its
ends, which are written as data. -/
def BlockOp.LimitsFit (cfg : BlockConfig) : BlockOp → Prop
  | .read _ _ _ _ => True
  | .write offset qiov _ _ _ => cfg.DetectsZeroes → cfg.LimitsFit
    ((roundUp (offset + iovSize qiov) cfg.align - alignDown offset cfg.align) / 512)
  | .writeZeroes offset bytes _ _ _ => cfg.LimitsFit
      ((alignDown (offset + bytes) cfg.align - roundUp offset cfg.align) / 512) ∧
    cfg.BlockFits offset ∧ cfg.BlockFits (offset + bytes)

/-- What the callers of a request, and the allocator of its buffers, take care of. -/
def BlockOp.Proper (cfg : BlockConfig) : BlockOp → Prop
  | .read _ qiov bufs _ =>
    Accepted cfg (iovSize qiov) ∧ (iovAddrs qiov).Nodup ∧ bufs.Fresh cfg.align qiov
  | .write _ qiov _ bufs _ =>
    Accepted cfg (iovSize qiov) ∧ cfg.readOnly = false ∧ bufs.Fresh cfg.align qiov
  | .writeZeroes _ bytes _ _ _ => Accepted cfg bytes ∧ cfg.readOnly = false

/-- The request is not an empty write behind the end of the device. -/
def BlockOp.InDevice (cfg : BlockConfig) (bs : BlockState) : BlockOp → Prop
  | .write offset qiov _ _ _ =>
    iovSize qiov = 0 → cfg.align ∣ offset → offset ≤ 512 * bdrvNbSectors cfg bs
  | _ => True

/-- A request that the block layer serves in whole blocks. -/
structure BlockOp.Fits (cfg : BlockConfig) (bs : BlockState) (op : BlockOp) : Prop where
  proper : op.Proper cfg
  inDevice : op.InDevice cfg bs
  limits : op.LimitsFit cfg

/-- Every request of a sequence fits, at its time. -/
def FitsAll (cfg : BlockConfig) : BlockState → List BlockOp → Prop
  | _, [] => True
  | bs, op :: ops =>
    op.Fits cfg bs ∧ ∀ bs' out, blockStep cfg bs op = .ok (bs', out) → FitsAll cfg bs' ops

/-- One request does to the device what it does to the array. -/
theorem blockStep_spec {op : BlockOp} (hfits : op.Fits cfg bs) :
    ∃ bs', blockStep cfg bs op = .ok (bs', (arrayStep bs.content op).2) ∧ bs'.Valid cfg ∧
      bs'.content = (arrayStep bs.content op).1 := by
  obtain ⟨hproper, hin, hlimits⟩ := hfits
  cases op with
  | read offset qiov bufs mem =>
    obtain ⟨mem', hread, hgather⟩ :=
      bdrvCoDoPreadv_spec heof hvalid hproper.1 hproper.2.1 hproper.2.2 offset mem
    refine ⟨bs, ?_, hvalid, rfl⟩
    rw [blockStep, hread, ok_bind, hgather]
    rfl
  | write offset qiov mayUnmap bufs mem =>
    have hend : iovSize qiov = 0 → cfg.align ∣ offset → offset ≤ 512 * bs.driver.sectors := by
      intro hzero hdvd
      exact hvalid ▸ hin hzero hdvd
    have hflags : (RequestFlags.mk false mayUnmap).zeroWrite = false := rfl
    obtain ⟨bs', hwrite, hvalid', hcontent⟩ := bdrvCoDoPwritev_data heof hvalid hproper.2.1
      hproper.1 hflags hproper.2.2 hend hlimits mem
    refine ⟨bs', ?_, hvalid', hcontent⟩
    rw [blockStep, hwrite]
    rfl
  | writeZeroes offset bytes mayUnmap bufs mem =>
    have hflags : (RequestFlags.mk true mayUnmap).zeroWrite = true := rfl
    obtain ⟨bs', hwrite, hvalid', hcontent⟩ := bdrvCoDoZeroPwritev_spec heof hvalid hflags
      (trackedRequestBegin_for cfg.align offset bytes true) (padded_lt cfg hproper.1.1)
      hlimits.2.1 hlimits.1 hlimits.2.2 bufs.head mem
    refine ⟨bs', ?_, hvalid', hcontent⟩
    rw [blockStep, bdrvCoDoPwritev, check_of hproper.2, bdrvCheckByteRequest_of hproper.1]
    simp only []
    rw [hwrite]
    rfl

end Requests

/-- A device with blocks of some size, whose driver sets no limits and ignores what is not for whole
blocks. -/
def plainDevice (k : Nat) (h : 2 ^ k < 2 ^ 31 - 1) : BlockConfig where
  requestAlignment := 2 ^ k
  limits := ⟨0, 0, 0⟩
  writeZeroes := none
  oddRead _ _ _ := []
  oddWrite d _ _ := d
  detectZeroes := .off
  hasVariableLength := false
  zeroBeyondEof := true
  readOnly := false
  inserted := true
  requestAlignment_pow := ⟨k, rfl⟩
  requestAlignment_lt := h

theorem limitsFit_plainDevice {k n : Nat} {h : 2 ^ k < 2 ^ 31 - 1} (hn : n ≤ 32768) :
    (plainDevice k h).LimitsFit n :=
  ⟨.inl rfl, .inl (hn.trans (show 32768 ≤ minNonZero 0 requestMaxSectors by decide)),
    .inr (.inl hn)⟩

theorem blockFits_plainDevice {k : Nat} {h : 2 ^ k < 2 ^ 31 - 1} (p : Nat) :
    (plainDevice k h).BlockFits p := fun hd => absurd rfl hd.1

/-- A device of some length that is full of ones. -/
def onesDevice (sectors : Nat) : BlockState := ⟨⟨fun _ => 1, sectors⟩, sectors⟩

/-- Buffers behind the first bytes of the memory. -/
def farBuffers (align : Nat) : PadBuffers := ⟨align, 2 * align⟩

theorem farBuffers_fresh {align : Nat} (h : ∀ a ∈ iovAddrs qiov, a < align) :
    (farBuffers align).Fresh align qiov := by
  constructor
  · intro a ha ht
    simp only [farBuffers, mem_range'_1] at ha ht
    omega
  · intro a ha hq
    have hlt := h a hq
    simp only [farBuffers, mem_range'_1] at ha
    omega
  intro a ha hq
  have hlt := h a hq
  simp only [farBuffers, mem_range'_1] at ha
  omega

/-- Zeroes over the boundary of a block of 1024 bytes, data among them, and a read. -/
def smallOps : List BlockOp :=
  [.writeZeroes 1020 1030 false (farBuffers 1024) fun _ => 0,
    .write 1023 [⟨0, 1⟩, ⟨4, 2⟩] false (farBuffers 1024) fun a => UInt8.ofNat (a + 7),
    .read 1018 [⟨0, 5⟩, ⟨8, 4⟩] (farBuffers 1024) fun _ => 3]

/-- Zeroes for a whole block of 32 MiB, and a read of its first byte. -/
def largeOps : List BlockOp :=
  [.writeZeroes 0 (2 ^ 25) false (farBuffers (2 ^ 25)) fun _ => 0,
    .read 0 [⟨0, 1⟩] (farBuffers (2 ^ 25)) fun _ => 3]

end QemuAndroid.Block
