import Mathlib.Algebra.Order.BigOperators.Group.List
import Mathlib.Algebra.Order.Ring.Nat
import QemuAndroid.Virtio.Queue

/-!
# What `virtqueue_get_avail_bytes` predicts

`virtqueue_get_avail_bytes` and `virtqueue_pop` walk the same chains, each with a loop of its own.
A chain is described here once (`Chain`, `HeadChain`), and both loops are shown to follow it.  The
two functions differ in the index of the ring: `virtqueue_pop` keeps it in 16 bits, and
`virtqueue_get_avail_bytes` counts on in an `unsigned int`.
-/

namespace QemuAndroid.Virtio

open List BitVec Nat VRingDesc GuestMemory VirtQueueElement

variable {vdev : VirtIODevice} {vq : VirtQueue} {mem : GuestMemory} {descPa : BitVec 64}
variable {max i idx : Nat} {l l' : List VRingDesc}

/-! ## Chains -/

/-- The descriptors from index `i` of a table on, with the next index of each. -/
inductive Chain (desc : Nat → VRingDesc) (next : Nat → Except VirtqueueError Nat) (max : Nat) :
    Nat → List VRingDesc → Prop
  | last {i : Nat} : next i = .ok max → Chain desc next max i [desc i]
  | cons {i j : Nat} {l : List VRingDesc} : next i = .ok j → j ≠ max → Chain desc next max j l →
      Chain desc next max i (desc i :: l)

theorem Chain.unique {desc : Nat → VRingDesc} {next : Nat → Except VirtqueueError Nat}
    (h : Chain desc next max i l) (h' : Chain desc next max i l') : l = l' := by
  induction h generalizing l' with
  | last hnext =>
    cases h' with
    | last _ => rfl
    | cons hnext' hne _ =>
      cases hnext.symm.trans hnext'
      exact absurd rfl hne
  | cons hnext hne _ ih =>
    cases h' with
    | last hnext' =>
      cases hnext.symm.trans hnext'
      exact absurd rfl hne
    | cons hnext' _ hrest =>
      cases hnext.symm.trans hnext'
      rw [ih hrest]

abbrev TableChain (mem : GuestMemory) (descPa : BitVec 64) (max : Nat) :=
  Chain (mem.desc descPa) (virtqueueNextDesc mem descPa · max) max

/-- The chain of a head: that of the indirect table, or that of the queue's own. -/
def HeadChain (vq : VirtQueue) (mem : GuestMemory) (head : Nat) (l : List VRingDesc) : Prop :=
  ∃ descPa max i, popTable vq mem head = .ok (descPa, max, i) ∧ TableChain mem descPa max i l

def SlotChain (vq : VirtQueue) (mem : GuestMemory) (slot : Nat) (l : List VRingDesc) : Prop :=
  (mem.availRing slot).toNat < vq.num ∧ HeadChain vq mem (mem.availRing slot).toNat l

variable {head fuel totalBufs h : Nat} {mem' : GuestMemory} {outTotal : BitVec 32} {vq' : VirtQueue}

theorem HeadChain.unique (h : HeadChain vq mem head l) (h' : HeadChain vq mem head l') :
    l = l' := by
  obtain ⟨_, _, _, htable, h⟩ := h
  obtain ⟨_, _, _, htable', h'⟩ := h'
  cases htable.symm.trans htable'
  exact h.unique h'

theorem SlotChain.unique {slots : List Nat} {ls ls' : List (List VRingDesc)}
    (h : List.Forall₂ (SlotChain vq mem) slots ls)
    (h' : List.Forall₂ (SlotChain vq mem) slots ls') : ls = ls' :=
  right_unique_forall₂' (fun _ _ _ hl hl' => hl.2.unique hl'.2) h h'

/-- The segments of a chain that the device may write, or those that it may read. -/
def segments (write : Bool) (l : List VRingDesc) : List Segment :=
  (l.filter (·.isWrite == write)).map fun d => ⟨d.addr, d.len⟩

def bytes (write : Bool) (l : List VRingDesc) : BitVec 32 :=
  ((segments write l).map Segment.len).sum

section

variable (d : VRingDesc)

section

variable (l)

theorem addIn_add_bytes (t : BitVec 32) : d.addIn t + bytes true l = t + bytes true (d :: l) := by
  cases hwrite : d.isWrite with
  | true => simp [addIn, bytes, segments, hwrite, add_assoc]
  | false => simp [addIn, bytes, segments, hwrite]

theorem addOut_add_bytes (t : BitVec 32) :
    d.addOut t + bytes false l = t + bytes false (d :: l) := by
  cases hwrite : d.isWrite with
  | true => simp [addOut, bytes, segments, hwrite]
  | false => simp [addOut, bytes, segments, hwrite, add_assoc]

theorem collectIn_append (sg : List Segment) :
    d.collectIn sg ++ segments true l = sg ++ segments true (d :: l) := by
  cases hwrite : d.isWrite with
  | true => simp [collectIn, segments, hwrite]
  | false => simp [collectIn, segments, hwrite]

theorem collectOut_append (sg : List Segment) :
    d.collectOut sg ++ segments false l = sg ++ segments false (d :: l) := by
  cases hwrite : d.isWrite with
  | true => simp [collectOut, segments, hwrite]
  | false => simp [collectOut, segments, hwrite]

end

end

/-! ## The two loops over a chain -/

theorem availChain_complete {maxInBytes maxOutBytes : BitVec 32} {numBufs n : Nat}
    {inTotal inTotal' outTotal' : BitVec 32}
    (h : availChain mem descPa max maxInBytes maxOutBytes fuel numBufs i inTotal outTotal =
      .ok (.complete n inTotal' outTotal')) :
    ∃ l, TableChain mem descPa max i l ∧ inTotal' = inTotal + bytes true l ∧
      outTotal' = outTotal + bytes false l := by
  fun_induction availChain mem descPa max maxInBytes maxOutBytes fuel numBufs i inTotal
    outTotal with
  | case5 =>
    rename_i hnext
    obtain ⟨-, rfl, rfl⟩ := ChainEnd.complete.inj (Except.ok.inj h)
    refine ⟨_, .last hnext, ?_, ?_⟩
    · rw [← addIn_add_bytes]
      exact (add_zero _).symm
    · rw [← addOut_add_bytes]
      exact (add_zero _).symm
  | case6 =>
    rename_i hnext hne ih
    obtain ⟨l, hl, hin, hout⟩ := ih h
    refine ⟨_, .cons hnext hne hl, ?_, ?_⟩
    · rw [hin, addIn_add_bytes]
    · rw [hout, addOut_add_bytes]
  | _ => cases h

variable {inSg outSg inSg' outSg' : List Segment}

/-- A pass that does not fail stores a segment where there is room for it. -/
theorem popPass_ok {j : Nat} (h : popPass mem descPa max i inSg outSg = .ok (j, inSg', outSg')) :
    virtqueueNextDesc mem descPa i max = .ok j ∧ inSg' = (mem.desc descPa i).collectIn inSg ∧
      outSg' = (mem.desc descPa i).collectOut outSg ∧ inSg'.length + outSg'.length ≤ max ∧
      ((mem.desc descPa i).isWrite = true → inSg.length < virtqueueMaxSize) ∧
      ((mem.desc descPa i).isWrite = false → outSg.length < virtqueueMaxSize) := by
  dsimp only [popPass] at h
  split at h
  · cases h
  next hin =>
  split at h
  · cases h
  next hout =>
  split at h
  · cases h
  next hmax =>
  cases hnext : virtqueueNextDesc mem descPa i max with
  | error e =>
    rw [hnext] at h
    cases h
  | ok next =>
    rw [hnext] at h
    cases h
    refine ⟨rfl, rfl, rfl, Nat.le_of_not_lt hmax, fun hwrite => ?_, fun hread => ?_⟩
    · simpa [hwrite] using hin
    · simpa [hread] using hout

theorem popChain_ok (h : popChain mem descPa max fuel i inSg outSg = .ok (inSg', outSg')) :
    ∃ l, TableChain mem descPa max i l ∧ inSg' = inSg ++ segments true l ∧
      outSg' = outSg ++ segments false l := by
  fun_induction popChain mem descPa max fuel i inSg outSg with
  | case3 fuel i inSg outSg _ _ hpass =>
    obtain ⟨hnext, rfl, rfl, -⟩ := popPass_ok hpass
    obtain ⟨rfl, rfl⟩ := Prod.mk.inj (Except.ok.inj h)
    refine ⟨_, .last hnext, ?_, ?_⟩
    · rw [← collectIn_append]
      exact (append_nil _).symm
    · rw [← collectOut_append]
      exact (append_nil _).symm
  | case4 fuel i inSg outSg next _ _ hpass hne ih =>
    obtain ⟨hnext, rfl, rfl, -⟩ := popPass_ok hpass
    obtain ⟨l, hl, hin, hout⟩ := ih h
    refine ⟨_, .cons hnext hne hl, ?_, ?_⟩
    · rw [hin, collectIn_append]
    · rw [hout, collectOut_append]
  | _ => cases h

/-! ## The two walks over the ring -/

/-- The heads that the guest has made available from an index on. -/
def GuestMemory.numHeads (mem : GuestMemory) (idx : Nat) : Nat :=
  (mem.availIdx - BitVec.ofNat 16 idx).toNat

theorem GuestMemory.numHeads_succ (hidx : mem.numHeads idx = h + 1) :
    mem.numHeads (idx + 1) = h := by
  unfold numHeads at hidx ⊢
  rw [toNat_sub, toNat_ofNat] at hidx ⊢
  omega

theorem virtqueueNumHeads_ok (heq : virtqueueNumHeads vq mem idx = .ok h) :
    mem.numHeads idx = h := by
  rw [virtqueueNumHeads] at heq
  split at heq
  · cases heq
  · exact Except.ok.inj heq

theorem virtqueueGetHead_ok (heq : virtqueueGetHead vq mem idx = .ok head) :
    (mem.availRing (idx % vq.num)).toNat = head ∧ head < vq.num := by
  rw [virtqueueGetHead] at heq
  split at heq
  · cases heq
  · next hlt =>
    cases heq
    exact ⟨rfl, Nat.lt_of_not_le hlt⟩

/-- The entries of the ring that `virtqueue_get_avail_bytes` reads for the next `h` heads. -/
def availSlots (vq : VirtQueue) (idx h : Nat) : List Nat :=
  (List.range' idx h).map (· % vq.num)

/-- The entries of the ring that the next `h` calls of `virtqueue_pop` read. -/
def popSlots (vq : VirtQueue) (idx h : Nat) : List Nat :=
  (List.range' idx h).map (· % 2 ^ 16 % vq.num)

theorem availWalk_empty {maxInBytes maxOutBytes : BitVec 32}
    {inTotal inTotal' outTotal' : BitVec 32} (hfuel : mem.numHeads idx < fuel)
    (h : availWalk vq mem maxInBytes maxOutBytes fuel idx totalBufs inTotal outTotal =
      .ok (.empty inTotal' outTotal')) :
    ∃ ls, List.Forall₂ (SlotChain vq mem) (availSlots vq idx (mem.numHeads idx)) ls ∧
      inTotal' = inTotal + (ls.map (bytes true)).sum ∧
      outTotal' = outTotal + (ls.map (bytes false)).sum := by
  induction fuel generalizing idx totalBufs inTotal outTotal with
  | zero => cases hfuel
  | succ fuel ih =>
    rw [availWalk] at h
    split at h
    · cases h
    · next hzero =>
      cases h
      rw [virtqueueNumHeads_ok hzero]
      exact ⟨[], .nil, (add_zero _).symm, (add_zero _).symm⟩
    · next k hheads =>
      have hk := virtqueueNumHeads_ok hheads
      split at h
      · cases h
      next head hhead =>
      obtain ⟨rfl, hlt⟩ := virtqueueGetHead_ok hhead
      dsimp only at h
      -- the chain of this head, and the walk over the others
      obtain ⟨l, totalBufs', hl, hrest⟩ : ∃ l totalBufs', SlotChain vq mem (idx % vq.num) l ∧
          availWalk vq mem maxInBytes maxOutBytes fuel (idx + 1) totalBufs' (inTotal + bytes true l)
            (outTotal + bytes false l) = .ok (.empty inTotal' outTotal') := by
        split at h
        · next hind =>
          split at h
          · cases h
          next hsize =>
          split at h
          · cases h
          split at h
          · cases h
          · cases h
          next n inTotal₁ outTotal₁ hchain =>
          obtain ⟨l, hl, rfl, rfl⟩ := availChain_complete hchain
          exact ⟨l, _, ⟨hlt, _, _, _, (if_pos hind).trans (if_neg hsize), hl⟩, h⟩
        · next hdirect =>
          split at h
          · cases h
          · cases h
          next n inTotal₁ outTotal₁ hchain =>
          obtain ⟨l, hl, rfl, rfl⟩ := availChain_complete hchain
          exact ⟨l, _, ⟨hlt, _, _, _, if_neg hdirect, hl⟩, h⟩
      have hsucc := numHeads_succ hk
      obtain ⟨ls, hls, hin, hout⟩ := ih (by omega) hrest
      rw [hsucc] at hls
      refine ⟨l :: ls, ?_, ?_, ?_⟩
      · rw [hk]
        exact .cons hl hls
      · rw [hin, map_cons, sum_cons, add_assoc]
      · rw [hout, map_cons, sum_cons, add_assoc]

/-- Taking elements until the queue is empty. -/
inductive Pops (vdev : VirtIODevice) :
    VirtQueue → GuestMemory → List VirtQueueElement → Prop
  | empty {vq : VirtQueue} {mem : GuestMemory} :
      virtqueuePop vdev vq mem = .ok none → Pops vdev vq mem []
  | pop {vq vq' : VirtQueue} {mem mem' : GuestMemory} {e : VirtQueueElement}
      {es : List VirtQueueElement} : virtqueuePop vdev vq mem = .ok (some (e, vq', mem')) →
      Pops vdev vq' mem' es → Pops vdev vq mem (e :: es)

/-- The bytes of an element that the device may write. -/
def VirtQueueElement.inBytes (e : VirtQueueElement) : BitVec 32 := (e.inSg.map Segment.len).sum

/-- The bytes of an element that the device may read. -/
def VirtQueueElement.outBytes (e : VirtQueueElement) : BitVec 32 := (e.outSg.map Segment.len).sum

theorem virtqueueNumHeads_eq (hidx : mem.numHeads idx = h) (hle : h ≤ vq.num) :
    virtqueueNumHeads vq mem idx = .ok h := by
  subst hidx
  exact if_neg (Nat.not_lt.2 hle)

theorem virtqueuePop_none :
    virtqueuePop vdev vq mem = .ok none ↔ mem.numHeads vq.lastAvailIdx.toNat = 0 := by
  constructor
  · fun_cases virtqueuePop vdev vq mem with
    | case2 hzero => exact fun _ => virtqueueNumHeads_ok hzero
    | _ => nofun
  · intro hzero
    rw [virtqueuePop, virtqueueNumHeads_eq hzero (zero_le _)]

/-- The element of a head has the segments of its chain. -/
theorem popElement_ok {e : VirtQueueElement} (h : popElement vdev vq mem head = .ok e) :
    ∃ l, HeadChain vq mem head l ∧ e.inSg = segments true l ∧ e.outSg = segments false l := by
  revert h
  fun_cases popElement vdev vq mem head with
  | case5 descPa max i htable inSg outSg hchain =>
    rintro ⟨⟩
    obtain ⟨l, hl, rfl, rfl⟩ := popChain_ok hchain
    exact ⟨l, ⟨_, _, _, htable, hl⟩, rfl, rfl⟩
  | _ => nofun

theorem popAvailEvent_eq (vdev : VirtIODevice) (vq : VirtQueue) (mem : GuestMemory) :
    ∃ val, popAvailEvent vdev vq mem = { mem with availEvent := val } := by
  unfold popAvailEvent vringSetAvailEvent
  split
  · split
    · exact ⟨_, rfl⟩
    · exact ⟨_, rfl⟩
  · exact ⟨_, rfl⟩

/-- What one call of `virtqueue_pop` takes, and what it changes. -/
theorem virtqueuePop_some {e : VirtQueueElement}
    (h : virtqueuePop vdev vq mem = .ok (some (e, vq', mem'))) :
    (∃ k, mem.numHeads vq.lastAvailIdx.toNat = k + 1) ∧
    (∃ l, SlotChain vq mem (vq.lastAvailIdx.toNat % vq.num) l ∧ e.inSg = segments true l ∧
      e.outSg = segments false l) ∧
    vq' = { vq with lastAvailIdx := vq.lastAvailIdx + 1, inuse := vq.inuse + 1 } ∧
    ∃ val, mem' = { mem with availEvent := val } := by
  rw [virtqueuePop] at h
  split at h
  · cases h
  · cases h
  next k hheads =>
  split at h
  · cases h
  next head hhead =>
  dsimp only at h
  split at h
  · cases h
  next elem helem =>
  cases h
  obtain ⟨val, hmem⟩ := popAvailEvent_eq vdev { vq with lastAvailIdx := vq.lastAvailIdx + 1 } mem
  obtain ⟨rfl, hlt⟩ := virtqueueGetHead_ok hhead
  obtain ⟨l, hl, hin, hout⟩ := popElement_ok helem
  rw [hmem] at hl
  exact ⟨⟨k, virtqueueNumHeads_ok hheads⟩, ⟨l, ⟨hlt, hl⟩, hin, hout⟩, rfl, val, hmem⟩

/-! ## Every table that a guest may set up -/

/-- Both arrays are within their size. -/
def Fits (inSg outSg : List Segment) : Prop :=
  inSg.length ≤ virtqueueMaxSize ∧ outSg.length ≤ virtqueueMaxSize

/-- The loop of `virtqueue_pop`, pass by pass and without a bound on their number: it ends with a
result, and every pass before leaves arrays that are within their size. -/
inductive PopLoop (mem : GuestMemory) (descPa : BitVec 64) (max : Nat) :
    Nat → List Segment → List Segment → Except VirtqueueError (List Segment × List Segment) → Prop
  | fail {i : Nat} {inSg outSg : List Segment} {e : VirtqueueError} :
      popPass mem descPa max i inSg outSg = .error e →
      PopLoop mem descPa max i inSg outSg (.error e)
  | last {i : Nat} {inSg outSg inSg' outSg' : List Segment} :
      popPass mem descPa max i inSg outSg = .ok (max, inSg', outSg') → Fits inSg' outSg' →
      PopLoop mem descPa max i inSg outSg (.ok (inSg', outSg'))
  | next {i j : Nat} {inSg outSg inSg' outSg' : List Segment}
      {r : Except VirtqueueError (List Segment × List Segment)} :
      popPass mem descPa max i inSg outSg = .ok (j, inSg', outSg') → j ≠ max → Fits inSg' outSg' →
      PopLoop mem descPa max j inSg' outSg' r → PopLoop mem descPa max i inSg outSg r

theorem popPass_fits {j : Nat} (h : popPass mem descPa max i inSg outSg = .ok (j, inSg', outSg'))
    (hfits : Fits inSg outSg) :
    inSg'.length + outSg'.length = inSg.length + outSg.length + 1 ∧ Fits inSg' outSg' := by
  obtain ⟨-, rfl, rfl, -, hin, hout⟩ := popPass_ok h
  cases hwrite : (mem.desc descPa i).isWrite with
  | true => simpa [Fits, collectIn, collectOut, hwrite, add_right_comm] using ⟨hin hwrite, hfits.2⟩
  | false => simpa [Fits, collectIn, collectOut, hwrite, Nat.add_assoc] using ⟨hfits.1, hout hwrite⟩

/-- Each pass stores one more segment, and there are never more than `max`. -/
theorem popLoop_popChain (hfits : Fits inSg outSg) (hle : inSg.length + outSg.length ≤ max)
    (hfuel : max < inSg.length + outSg.length + fuel) :
    PopLoop mem descPa max i inSg outSg (popChain mem descPa max fuel i inSg outSg) := by
  induction fuel generalizing i inSg outSg with
  | zero => exact absurd hfuel (Nat.not_lt.2 hle)
  | succ fuel ih =>
    rw [popChain]
    split
    · next e hpass => exact .fail hpass
    · next next inSg' outSg' hpass =>
      obtain ⟨hlen, hfits'⟩ := popPass_fits hpass hfits
      have hle' := (popPass_ok hpass).2.2.2.1
      split
      · next heq =>
        subst heq
        exact .last hpass hfits'
      · next hne => exact .next hpass hne hfits' (ih hfits' hle' (by omega))

/-- A ring whose entry `x` has a descriptor of two bytes, and all others one of one byte. -/
def markedMemory (descPa : BitVec 64) (availIdx : BitVec 16) (x : Nat) : GuestMemory where
  descAt pa := if pa = descPa then ⟨0, 1, 0, 0⟩ else ⟨0, 2, 0, 0⟩
  availIdx := availIdx
  availRing slot := if slot = x then 1 else 0
  availEvent := 0

/-- A device without event index that can map everything. -/
def mappingDevice : VirtIODevice := ⟨false, fun _ _ _ => true⟩

/-- A queue whose index is about to wrap around. -/
def wrappingQueue (num : Nat) (num_le : num ≤ virtqueueMaxSize) : VirtQueue :=
  ⟨num, 0, 65535, true, 0, num_le⟩

theorem GuestMemory.numHeads_mod (mem : GuestMemory) (idx : Nat) :
    mem.numHeads (idx % 2 ^ 16) = mem.numHeads idx := by
  have hofNat : BitVec.ofNat 16 (idx % 2 ^ 16) = BitVec.ofNat 16 idx := by
    apply eq_of_toNat_eq
    rw [toNat_ofNat, toNat_ofNat, mod_mod]
  rw [numHeads, numHeads, hofNat]

theorem popSlots_mod (vq : VirtQueue) (idx h : Nat) :
    popSlots vq (idx % 2 ^ 16) h = popSlots vq idx h := by
  unfold popSlots
  rw [range'_eq_map_range, range'_eq_map_range, map_map, map_map]
  refine map_congr_left fun k _ => ?_
  show (idx % 2 ^ 16 + k) % 2 ^ 16 % vq.num = (idx + k) % 2 ^ 16 % vq.num
  rw [mod_add_mod]

/-- The elements are the chains at the entries that the calls read. -/
theorem Pops.chains {es : List VirtQueueElement} (h : Pops vdev vq mem es) :
    ∃ ls, List.Forall₂ (SlotChain vq mem)
        (popSlots vq vq.lastAvailIdx.toNat (mem.numHeads vq.lastAvailIdx.toNat)) ls ∧
      es.map inBytes = ls.map (bytes true) ∧
      es.map outBytes = ls.map (bytes false) := by
  induction h with
  | empty hnone =>
    rw [virtqueuePop_none.1 hnone]
    exact ⟨[], .nil, rfl, rfl⟩
  | @pop vq vq' mem mem' e es hpop hrest ih =>
    obtain ⟨⟨k, hk⟩, ⟨l, hl, hin, hout⟩, rfl, val, rfl⟩ := virtqueuePop_some hpop
    obtain ⟨ls, hls, hins, houts⟩ := ih
    have hlast : (vq.lastAvailIdx + 1).toNat = (vq.lastAvailIdx.toNat + 1) % 2 ^ 16 := toNat_add _ _
    have hheads : mem.numHeads (vq.lastAvailIdx + 1).toNat = k := by
      rw [hlast, numHeads_mod, numHeads_succ hk]
    have hls : Forall₂ (SlotChain vq mem)
        (popSlots vq (vq.lastAvailIdx.toNat + 1) k) ls := by
      rw [← popSlots_mod, ← hheads]
      exact hls
    refine ⟨l :: ls, ?_, ?_, ?_⟩
    · rw [hk]
      refine .cons ?_ hls
      show SlotChain vq mem (vq.lastAvailIdx.toNat % 2 ^ 16 % vq.num) l
      rwa [mod_eq_of_lt vq.lastAvailIdx.isLt]
    · rw [map_cons, map_cons, hins, inBytes, hin, bytes]
    · rw [map_cons, map_cons, houts, outBytes, hout, bytes]

/-! ## The prediction -/

/-- Both walks read the same entries when the 16-bit index does not wrap around, or when its range
is a multiple of the ring's size. -/
def SameSlots (vq : VirtQueue) (availIdx : BitVec 16) : Prop :=
  vq.lastAvailIdx.toNat + (availIdx - vq.lastAvailIdx).toNat ≤ 2 ^ 16 ∨ vq.num ∣ 2 ^ 16
deriving Decidable

theorem numHeads_lastAvailIdx (vq : VirtQueue) (mem : GuestMemory) :
    mem.numHeads vq.lastAvailIdx.toNat = (mem.availIdx - vq.lastAvailIdx).toNat := by
  rw [numHeads, ofNat_toNat, setWidth_eq]

theorem SameSlots.slots_eq (h : SameSlots vq mem.availIdx) :
    popSlots vq vq.lastAvailIdx.toNat (mem.numHeads vq.lastAvailIdx.toNat) =
      availSlots vq vq.lastAvailIdx.toNat (mem.numHeads vq.lastAvailIdx.toNat) := by
  rw [numHeads_lastAvailIdx]
  refine map_congr_left fun k hk => ?_
  rcases h with h | h
  · have hlt := (mem_range'_1.1 hk).2
    rw [mod_eq_of_lt (show k < 2 ^ 16 by omega)]
  · exact mod_mod_of_dvd k h

/-- `virtqueue_get_avail_bytes`, with maxima that do not end its walk, reports the bytes of the
elements that `virtqueue_pop` takes until the queue is empty. -/
def Predicts (vdev : VirtIODevice) (vq : VirtQueue) (mem : GuestMemory) : Prop :=
  ∀ maxInBytes maxOutBytes inTotal outTotal,
    availWalk vq mem maxInBytes maxOutBytes (vq.num + 1) vq.lastAvailIdx.toNat 0 0#32 0#32 =
      .ok (.empty inTotal outTotal) →
    ∀ es, Pops vdev vq mem es → inTotal = (es.map inBytes).sum ∧
      outTotal = (es.map outBytes).sum

theorem SameSlots.predicts (h : SameSlots vq mem.availIdx)
    (hheads : (mem.availIdx - vq.lastAvailIdx).toNat ≤ vq.num) : Predicts vdev vq mem := by
  intro maxInBytes maxOutBytes inTotal outTotal hwalk es hpops
  have hfuel : mem.numHeads vq.lastAvailIdx.toNat < vq.num + 1 := by
    rw [numHeads_lastAvailIdx]
    omega
  obtain ⟨ls, hls, hin, hout⟩ := availWalk_empty hfuel hwalk
  obtain ⟨ls', hls', hin', hout'⟩ := hpops.chains
  rw [h.slots_eq] at hls'
  obtain rfl := SlotChain.unique hls hls'
  rw [hin', hout', hin, hout, BitVec.zero_add, BitVec.zero_add]
  exact ⟨rfl, rfl⟩

/-! ## Rings of another size -/

/-- The bytes at an entry of `markedMemory`. -/
def markedLen (x slot : Nat) : Nat := if slot = x then 2 else 1

/-- A descriptor that the device may read and that ends its chain. -/
def lastDesc (len : Nat) : VRingDesc := ⟨0, BitVec.ofNat 32 len, 0, 0⟩

@[simp] theorem hasNext_lastDesc (len : Nat) : (lastDesc len).hasNext = false := by
  simp [hasNext, lastDesc]

@[simp] theorem isWrite_lastDesc (len : Nat) : (lastDesc len).isWrite = false := by
  simp [isWrite, lastDesc]

@[simp] theorem isIndirect_lastDesc (len : Nat) : (lastDesc len).isIndirect = false := by
  simp [isIndirect, lastDesc]

def Marked (x : Nat) (descPa : BitVec 64) (mem : GuestMemory) : Prop :=
  ∀ slot, (mem.availRing slot).toNat ≤ 1 ∧
    mem.desc descPa (mem.availRing slot).toNat = lastDesc (markedLen x slot)

section Marked

variable {x h : Nat}

theorem marked_markedMemory (descPa : BitVec 64) (availIdx : BitVec 16) (x : Nat) :
    Marked x descPa (markedMemory descPa availIdx x) := by
  intro slot
  unfold desc markedMemory markedLen
  dsimp only
  rcases eq_or_ne slot x with rfl | hne
  · rw [if_pos rfl, if_pos rfl, if_neg]
    · exact ⟨le_refl 1, rfl⟩
    intro heq
    have h : BitVec.ofNat 64 (sizeofDesc * (1 : BitVec 16).toNat) = 0 := by
      rwa [BitVec.add_right_eq_self] at heq
    exact absurd h (by decide)
  · rw [if_neg hne, if_neg hne, if_pos]
    · exact ⟨zero_le 1, rfl⟩
    · exact add_zero _

theorem Marked.virtqueueGetHead (hm : Marked x descPa mem) (hnum : 1 < vq.num) (idx : Nat) :
    virtqueueGetHead vq mem idx = .ok (mem.availRing (idx % vq.num)).toNat :=
  if_neg (not_le.2 ((hm _).1.trans_lt hnum))

theorem virtqueueNextDesc_lastDesc {len : Nat} (hdesc : mem.desc descPa i = lastDesc len) :
    virtqueueNextDesc mem descPa i max = .ok max := by
  simp only [virtqueueNextDesc, hdesc, hasNext_lastDesc, Bool.not_false, if_true]

theorem availChain_lastDesc {len numBufs : Nat} (hdesc : mem.desc descPa i = lastDesc len)
    (hlt : numBufs < max) :
    availChain mem descPa max (BitVec.allOnes 32) (BitVec.allOnes 32) (fuel + 1) numBufs i 0#32
      outTotal = .ok (.complete (numBufs + 1) 0#32 (outTotal + BitVec.ofNat 32 len)) := by
  have hin : (lastDesc len).addIn 0#32 = 0#32 := by
    rw [addIn, isWrite_lastDesc, if_neg Bool.false_ne_true]
  have hout : (lastDesc len).addOut outTotal = outTotal + BitVec.ofNat 32 len := by
    rw [addOut, isWrite_lastDesc]
    rfl
  have hmax : ¬(allOnes 32 ≤ 0#32 ∧ allOnes 32 ≤ outTotal + BitVec.ofNat 32 len) := by
    rintro ⟨h, -⟩
    exact absurd h (by decide)
  simp only [availChain, if_neg (Nat.not_lt.2 hlt), hdesc, hin, hout, if_neg hmax,
    virtqueueNextDesc_lastDesc hdesc, if_true]

section

variable (hm : Marked x vq.descPa mem)
include hm

theorem Marked.availWalk (hnum : 1 < vq.num) (outTotal : BitVec 32) (hidx : mem.numHeads idx = h)
    (hfuel : h < fuel) (hbufs : totalBufs + h ≤ vq.num) :
    availWalk vq mem (BitVec.allOnes 32) (BitVec.allOnes 32) fuel idx totalBufs 0#32 outTotal =
      .ok (.empty 0#32 (outTotal +
        BitVec.ofNat 32 ((availSlots vq idx h).map (markedLen x)).sum)) := by
  induction fuel generalizing idx totalBufs outTotal h with
  | zero => omega
  | succ fuel ih =>
    rw [availWalk, virtqueueNumHeads_eq hidx (by omega)]
    cases h with
    | zero => exact congrArg (fun t => Except.ok (AvailEnd.empty 0#32 t)) (add_zero _).symm
    | succ k =>
      have hdesc := (hm (idx % vq.num)).2
      have hrest := ih (outTotal + BitVec.ofNat 32 (markedLen x (idx % vq.num)))
        (numHeads_succ hidx) (by omega)
        (show totalBufs + 1 + k ≤ vq.num by omega)
      have hsum : ((availSlots vq idx (k + 1)).map (markedLen x)).sum =
          markedLen x (idx % vq.num) + ((availSlots vq (idx + 1) k).map (markedLen x)).sum := rfl
      simp only [hm.virtqueueGetHead hnum, hdesc, isIndirect_lastDesc,
        availChain_lastDesc hdesc (show totalBufs < vq.num by omega), hrest, hsum,
        ofNat_add, add_assoc]
      rfl

theorem Marked.popElement (hnum : 0 < vq.num) (slot : Nat) :
    popElement mappingDevice vq mem (mem.availRing slot).toNat =
      .ok ⟨(mem.availRing slot).toNat, [⟨0, BitVec.ofNat 32 (markedLen x slot)⟩], []⟩ := by
  have hdesc := (hm slot).2
  have htable : popTable vq mem (mem.availRing slot).toNat =
      .ok (vq.descPa, vq.num, (mem.availRing slot).toNat) := by
    simp only [popTable, hdesc, isIndirect_lastDesc]
    rfl
  have hpass : popPass mem vq.descPa vq.num (mem.availRing slot).toNat [] [] =
      .ok (vq.num, [], [⟨0, BitVec.ofNat 32 (markedLen x slot)⟩]) := by
    have hlt : ¬vq.num < 0 + 1 := by omega
    simp only [popPass, hdesc, isWrite_lastDesc, virtqueueNextDesc_lastDesc hdesc,
      collectIn, collectOut, Bool.false_and, Bool.not_false, Bool.true_and,
      Bool.false_eq_true, if_false, nil_append, length_nil, length_singleton, hlt]
    rfl
  have hchain : popChain mem vq.descPa vq.num (vq.num + 1) (mem.availRing slot).toNat [] [] =
      .ok ([], [⟨0, BitVec.ofNat 32 (markedLen x slot)⟩]) := by
    rw [popChain, hpass]
    exact if_pos rfl
  simp only [Virtio.popElement, htable, hchain]
  rfl

theorem Marked.virtqueuePop (hnum : 1 < vq.num) (hidx : mem.numHeads vq.lastAvailIdx.toNat = h + 1)
    (hle : h + 1 ≤ vq.num) :
    virtqueuePop mappingDevice vq mem =
      .ok (some (⟨(mem.availRing (vq.lastAvailIdx.toNat % vq.num)).toNat,
        [⟨0, BitVec.ofNat 32 (markedLen x (vq.lastAvailIdx.toNat % vq.num))⟩], []⟩,
        { vq with lastAvailIdx := vq.lastAvailIdx + 1, inuse := vq.inuse + 1 }, mem)) := by
  have helem := @Marked.popElement { vq with lastAvailIdx := vq.lastAvailIdx + 1 } mem x hm
    (lt_of_succ_lt hnum) (vq.lastAvailIdx.toNat % vq.num)
  have hevent : popAvailEvent mappingDevice { vq with lastAvailIdx := vq.lastAvailIdx + 1 } mem =
    mem := rfl
  simp only [Virtio.virtqueuePop, virtqueueNumHeads_eq hidx hle, hm.virtqueueGetHead hnum, hevent,
    helem]

/-- The calls of `virtqueue_pop` on such a ring. -/
theorem Marked.pops (hnum : 1 < vq.num) (hidx : mem.numHeads vq.lastAvailIdx.toNat = h)
    (hle : h ≤ vq.num) :
    ∃ es, Pops mappingDevice vq mem es ∧ (es.map outBytes).sum =
      BitVec.ofNat 32 ((popSlots vq vq.lastAvailIdx.toNat h).map (markedLen x)).sum := by
  induction h generalizing vq with
  | zero =>
    exact ⟨[], .empty (virtqueuePop_none.2 hidx), rfl⟩
  | succ k ih =>
    have hlast : (vq.lastAvailIdx + 1).toNat = (vq.lastAvailIdx.toNat + 1) % 2 ^ 16 := toNat_add _ _
    have hnext := numHeads_succ hidx
    rw [← numHeads_mod] at hnext
    obtain ⟨es, hpops, hsum⟩ :=
      @ih { vq with lastAvailIdx := vq.lastAvailIdx + 1, inuse := vq.inuse + 1 } hm hnum hnext
        (le_of_succ_le hle)
    refine ⟨_, .pop (hm.virtqueuePop hnum hidx hle) hpops, ?_⟩
    have hslots : popSlots vq vq.lastAvailIdx.toNat (k + 1) =
        vq.lastAvailIdx.toNat % vq.num :: popSlots vq (vq.lastAvailIdx + 1).toNat k := by
      rw [hlast, popSlots_mod]
      show vq.lastAvailIdx.toNat % 2 ^ 16 % vq.num :: _ = _
      rw [mod_eq_of_lt vq.lastAvailIdx.isLt]
      rfl
    rw [hslots, map_cons, map_cons, sum_cons, sum_cons, hsum, ofNat_add]
    refine congrArg (· + _) ?_
    exact add_zero _

end

/-- If the index wraps around and its range is not a multiple of the size, the walks read different
entries. -/
theorem exists_markedLen_lt {last num k : Nat} (hlast : last < 2 ^ 16) (hle : k ≤ num)
    (hnum : num ≤ 2 ^ 16) (hwrap : 2 ^ 16 < last + k) (hdvd : ¬num ∣ 2 ^ 16) :
    ∃ x, (((List.range' last k).map (· % 2 ^ 16 % num)).map (markedLen x)).sum <
      (((List.range' last k).map (· % num)).map (markedLen x)).sum := by
  -- the first entry after the wrap-around is 0 for one walk, and `c` for the other
  obtain ⟨c, hc⟩ : ∃ c, 2 ^ 16 % num = c := ⟨_, rfl⟩
  have hcnum : c < num := by
    rw [← hc]
    exact mod_lt _ (by omega)
  obtain ⟨x, hx⟩ : ∃ x, max c (last + k - 2 ^ 16) = x := ⟨_, rfl⟩
  refine ⟨x, ?_⟩
  rw [map_map, map_map]
  have hafter {i : Nat} (hge : 2 ^ 16 ≤ i) (hlt : i < last + k) :
      markedLen x (i % 2 ^ 16 % num) = 1 := by
    rw [mod_eq_of_lt (by omega)]
    exact if_neg (by omega)
  refine sum_lt_sum _ _ (fun i hi => ?_) ⟨2 ^ 16 + (x - c), ?_, ?_⟩
  · obtain ⟨-, hlt⟩ := mem_range'_1.1 hi
    rcases lt_or_ge i (2 ^ 16) with hi | hge
    · show markedLen _ (i % 2 ^ 16 % num) ≤ markedLen _ (i % num)
      rw [mod_eq_of_lt hi]
    refine (hafter hge hlt).le.trans ?_
    show 1 ≤ markedLen _ (i % num)
    unfold markedLen
    split
    · decide
    · decide
  · exact mem_range'_1.2 ⟨by omega, by omega⟩
  · refine (hafter (by omega) (by omega)).trans_lt ?_
    have hslot : (2 ^ 16 + (x - c)) % num = x := by
      rw [add_mod, hc, ← add_mod_mod, mod_mod, add_mod_mod,
        show c + (x - c) = x by omega, mod_eq_of_lt (by omega)]
    show 1 < markedLen _ ((2 ^ 16 + (x - c)) % num)
    rw [hslot, markedLen, if_pos rfl]
    decide

theorem sum_markedLen_le (x : Nat) (slots : List Nat) :
    (slots.map (markedLen x)).sum ≤ 2 * slots.length := by
  induction slots with
  | nil => exact zero_le _
  | cons slot slots ih =>
    have hle : markedLen x slot ≤ 2 := by
      unfold markedLen
      split
      · exact le_refl 2
      · decide
    rw [map_cons, sum_cons, length_cons]
    omega

end Marked

/-- For a queue and an avail index with at most as many heads as the ring has entries: what
`virtqueue_get_avail_bytes` reports is what `virtqueue_pop` takes, for every device and everything
the guest may have put into its tables, if and only if the 16-bit index does not wrap around on
the way or its range is a multiple of the size of the ring. -/
theorem avail_bytes_predict_pop (vq : VirtQueue) (availIdx : BitVec 16)
    (hheads : (availIdx - vq.lastAvailIdx).toNat ≤ vq.num) :
    (∀ vdev mem, mem.availIdx = availIdx → Predicts vdev vq mem) ↔ SameSlots vq availIdx := by
  constructor
  · intro h
    by_contra hslots
    obtain ⟨hwrap, hdvd⟩ := not_or.1 hslots
    have hlast := vq.lastAvailIdx.isLt
    have hle : vq.num ≤ 1024 := vq.num_le
    obtain ⟨x, hx⟩ := exists_markedLen_lt hlast hheads (hle.trans (by decide))
      (Nat.lt_of_not_le hwrap) hdvd
    have hnum : 1 < vq.num := by
      omega
    have hidx : (markedMemory vq.descPa availIdx x).numHeads vq.lastAvailIdx.toNat =
        (availIdx - vq.lastAvailIdx).toNat := numHeads_lastAvailIdx vq _
    have hm := marked_markedMemory vq.descPa availIdx x
    obtain ⟨es, hpops, hsum⟩ := hm.pops hnum hidx hheads
    have hwalk := hm.availWalk hnum 0#32 hidx (lt_succ_of_le hheads)
      ((zero_add _).trans_le hheads)
    have hout := (h mappingDevice _ rfl _ _ _ _ hwalk es hpops).2
    rw [hsum, BitVec.zero_add] at hout
    have hnat := congrArg BitVec.toNat hout
    have hlt := sum_markedLen_le x (availSlots vq vq.lastAvailIdx.toNat
      (availIdx - vq.lastAvailIdx).toNat)
    rw [availSlots, length_map, length_range'] at hlt
    rw [toNat_ofNat, toNat_ofNat, availSlots, popSlots] at hnat
    omega
  · intro h vdev mem hmem
    subst hmem
    exact h.predicts hheads

theorem avail_bytes_predict_pop_four :
    Predicts mappingDevice (wrappingQueue 4 (by decide)) (markedMemory 0 1 1) :=
  (avail_bytes_predict_pop (wrappingQueue 4 (by decide)) 1 (by decide)).2 (by decide) _ _ rfl

/-- The guest sets the size to three.  With two heads, at 65535 and 65536, `virtqueue_pop` reads
entry 0 twice, and `virtqueue_get_avail_bytes` reads entries 0 and 1. -/
theorem avail_bytes_after_wrap : ∃ es,
    virtqueueGetAvailBytes ((wrappingQueue 128 (by decide)).setNum 3) (markedMemory 0 1 1)
      (BitVec.allOnes 32) (BitVec.allOnes 32) = .ok (0, 3) ∧
    Pops mappingDevice ((wrappingQueue 128 (by decide)).setNum 3) (markedMemory 0 1 1) es ∧
    (es.map inBytes).sum = 0 ∧ (es.map outBytes).sum = 2 :=
  ⟨[⟨0, [⟨0, 1⟩], []⟩, ⟨0, [⟨0, 1⟩], []⟩], by decide +kernel, .pop rfl (.pop rfl (.empty rfl)),
    by decide, by decide⟩

end QemuAndroid.Virtio
