import Mathlib.Data.List.GetD
import QemuAndroid.Render.Stream

/-!
# Packets and chunks

However the socket splits a stream of packets, a render thread carries them out one after the other,
each with the decoder that knows it, as long as their lengths are those of an `int`.

The invariant is about what the buffer holds: the start of the packets that are still to be carried
out, which is not a whole packet when the decoders have had their turns.
-/

namespace QemuAndroid.Render

open Lib ReadBuffer List Nat
open BitVec hiding not_not not_or

/-- A packet: an opcode that exactly one decoder knows, the length of the packet, and a payload. -/
structure Packet (env : RenderEnv) where
  bytes : List Byte
  decoder : Decoder
  header : 8 ≤ bytes.length
  length_eq : (word (fun i => bytes.getD i 0#8) 4).toNat = bytes.length
  known_iff : ∀ d, env.known d (word (fun i => bytes.getD i 0#8) 0) = decide (decoder = d)

variable {env : RenderEnv} {rb rb' : ReadBuffer} {u v w : List Byte} {d : Decoder}
  {qs : List (Packet env)} {fuel : Nat}

def Packet.dispatch (q : Packet env) : Dispatch := (q.decoder, q.bytes)

def stream (qs : List (Packet env)) : List Byte := (qs.map Packet.bytes).flatten

@[simp] theorem stream_nil : stream ([] : List (Packet env)) = [] := rfl

@[simp] theorem stream_cons (q : Packet env) (qs : List (Packet env)) :
    stream (q :: qs) = q.bytes ++ stream qs := rfl

@[simp] theorem stream_append (ps qs : List (Packet env)) :
    stream (ps ++ qs) = stream ps ++ stream qs := by
  unfold stream
  rw [map_append, flatten_append]

theorem Packet.length_lt (q : Packet env) : q.bytes.length < 2 ^ 32 := by
  rw [← q.length_eq]
  exact isLt _

/-! ## What a buffer holds -/

structure Holds (rb : ReadBuffer) (w : List Byte) : Prop where
  valid : rb.validData = w.length
  bytes : ∀ i (h : i < w.length), rb.buf (rb.readPtr + i) = w[i]
  fits : rb.readPtr + w.length ≤ rb.size

theorem Holds.consume (h : Holds rb (u ++ v)) : ∃ rb', rb.consume u.length = .ok rb' ∧
    Holds rb' v ∧ rb'.size = rb.size := by
  have hvalid := h.valid
  have hfits := h.fits
  rw [length_append] at hvalid hfits
  refine ⟨_, if_pos (by omega), ⟨?_, fun i hi => ?_, ?_⟩, rfl⟩
  · show rb.validData - u.length = v.length
    omega
  · rw [add_assoc, h.bytes (u.length + i) (by rw [length_append]; omega),
      getElem_append_right (le_add_right _ _)]
    congr 1
    omega
  · show rb.readPtr + u.length + v.length ≤ rb.size
    omega

theorem Holds.compact (h : Holds rb w) : (∀ i (hi : i < w.length), rb.compact.buf i = w[i]) ∧
    rb.compact.validData = w.length ∧ rb.compact.size = rb.size := by
  unfold ReadBuffer.compact
  have hvalid := h.valid
  split
  · refine ⟨fun i hi => ?_, hvalid, rfl⟩
    show (if i < rb.validData then _ else _) = _
    rw [if_pos (by omega)]
    exact h.bytes i hi
  refine ⟨fun i hi => ?_, hvalid, rfl⟩
  have hptr : rb.readPtr = 0 := by omega
  have := h.bytes i hi
  rwa [hptr, zero_add] at this

/-- What `recv` returns is appended to the valid data, unless it returns nothing. -/
theorem fill_eq {want : Nat} {input : List Byte} (hbytes : ∀ i (hi : i < w.length), rb.buf i = w[i])
    (hvalid : rb.validData = w.length) (hroom : w.length < rb.size) (hsize : rb.size < 2 ^ 34)
    (hwant : 0 < want) (hint : want < 2 ^ 31) :
    ∃ k stat rb', 0 < k ∧ k ≤ want ∧ rb.fill want input = (stat, rb', input.drop k) ∧
      (0 < stat ↔ input ≠ []) ∧ Holds rb' (w ++ input.take k) ∧ rb'.readPtr = 0 ∧
      rb'.size = rb.size := by
  have hlen : (2 ^ 64 + rb.size - rb.validData) % 2 ^ 64 = rb.size - w.length := by
    omega
  let k := min want (rb.size - w.length)
  have hk : 0 < k := Nat.lt_min.2 ⟨hwant, by omega⟩
  have hk' : k ≤ want := min_le_left _ _
  have hchunk : (input.take k).length ≤ k := length_take_le _ _
  have hint' : (BitVec.ofNat 32 (input.take k).length).toInt = (input.take k).length := by
    rw [toInt_eq_toNat_cond, toNat_ofNat, mod_eq_of_lt (by omega), if_pos (by omega)]
  -- the bytes of the buffer behind the chunk do not matter
  have hholds : ∀ n, n = w.length + (input.take k).length → Holds { rb with
        readPtr := 0
        buf := fun i =>
          if rb.validData ≤ i then (input.take k).getD (i - rb.validData) (rb.buf i) else rb.buf i
        validData := n } (w ++ input.take k) := by
    rintro n rfl
    refine ⟨(length_append).symm, fun i hi => ?_, ?_⟩
    · rw [length_append] at hi
      show (if rb.validData ≤ 0 + i then _ else _) = _
      rw [zero_add]
      by_cases hlt : i < w.length
      · rw [if_neg (by omega), getElem_append_left hlt]
        exact hbytes i hlt
      · rw [if_pos (by omega), getElem_append_right (by omega), hvalid]
        exact getD_eq_getElem _ _ (by omega)
    · show 0 + (w ++ input.take k).length ≤ rb.size
      rw [length_append]
      omega
  have hpos : 0 < ((input.take k).length : Int) ↔ input ≠ [] := by
    rw [Int.natCast_pos, length_pos_iff, ne_eq, take_eq_nil_iff]
    constructor
    · exact fun h hnil => h (.inr hnil)
    · rintro h (hzero | hnil)
      · omega
      · exact h hnil
  unfold ReadBuffer.fill
  simp only [hlen]
  rw [hint']
  by_cases hnil : input = []
  · rw [if_neg fun h => hpos.1 h hnil]
    have hempty : (input.take k).length = 0 := by rw [hnil, take_nil, length_nil]
    exact ⟨k, -1, _, hk, hk', rfl, ⟨fun h => absurd h (by decide), fun h => absurd hnil h⟩,
      hholds rb.validData (by omega), rfl, rfl⟩
  · rw [if_pos (hpos.2 hnil)]
    exact ⟨k, _, _, hk, hk', rfl, hpos, hholds _ (by rw [hvalid, Int.toNat_natCast]), rfl, rfl⟩

variable {want : Nat} {q : Packet env} {done qs' ps : List (Packet env)} {w' : List Byte}
  {s : RenderState}

/-- `ReadBuffer::getData`, on a buffer that holds less than a packet. -/
theorem getData_eq (hmem : ∀ n, env.canAlloc n = true) (input : List Byte) (h : Holds rb w)
    (hw : w.length < 2 ^ 32) (hsize : 0 < rb.size) (hsize' : rb.size < 2 ^ 33) (hwant : 0 < want)
    (hint : want < 2 ^ 31) :
    ∃ k stat rb', 0 < k ∧ k ≤ want ∧ rb.getData env want input = (stat, rb', input.drop k) ∧
      (0 < stat ↔ input ≠ []) ∧ Holds rb' (w ++ input.take k) ∧ rb'.readPtr = 0 ∧
      0 < rb'.size ∧ rb'.size < 2 ^ 33 := by
  obtain ⟨hbytes, hvalid, hcompact⟩ := h.compact
  have hfits := h.fits
  unfold getData
  by_cases hfull : rb.compact.size - rb.compact.validData = 0
  · have hnew : rb.compact.newSize = rb.size * 2 := by
      unfold newSize
      rw [if_neg (by omega)]
      omega
    rw [if_pos hfull, if_pos (hmem _), hnew]
    obtain ⟨k, stat, rb', hk, hk', heq, hstat, hholds, hptr, hs⟩ :=
      @fill_eq { rb.compact with size := rb.size * 2 } w want input hbytes hvalid
        (show w.length < rb.size * 2 by omega) (show rb.size * 2 < 2 ^ 34 by omega) hwant hint
    have hs : rb'.size = rb.size * 2 := hs
    exact ⟨k, stat, rb', hk, hk', heq, hstat, hholds, hptr, by omega, by omega⟩
  · rw [if_neg hfull]
    obtain ⟨k, stat, rb', hk, hk', heq, hstat, hholds, hptr, hs⟩ :=
      @fill_eq rb.compact w want input hbytes hvalid (by omega) (by omega) hwant hint
    exact ⟨k, stat, rb', hk, hk', heq, hstat, hholds, hptr, by omega, by omega⟩

/-! ## A decoder -/

/-- A decoder stops at a packet that is incomplete, or of another decoder. -/
def Stops (d : Decoder) (v : List Byte) : List (Packet env) → Prop
  | [] => v = []
  | q :: _ => v.length < q.bytes.length ∨ q.decoder ≠ d

theorem word_congr {f g : Nat → Byte} {i j : Nat} (h : ∀ k < 4, f (i + k) = g (j + k)) :
    word f i = word g j := by
  unfold word
  rw [h 3 (by decide), h 2 (by decide), h 1 (by decide)]
  rw [show f i = g j from h 0 (by decide)]

theorem Holds.header (h : Holds rb (u ++ v)) (hq : v <+: q.bytes ++ w) (hv : 8 ≤ v.length) :
    rb.readInt ((rb.readPtr : Int) + u.length) = .ok (word (fun i => q.bytes.getD i 0#8) 0) ∧
      rb.readInt ((rb.readPtr : Int) + u.length + 4) =
        .ok (word (fun i => q.bytes.getD i 0#8) 4) := by
  have hheader := q.header
  have hfits := h.fits
  rw [length_append] at hfits
  have hbyte : ∀ i < 8, rb.buf (rb.readPtr + u.length + i) = q.bytes.getD i 0#8 := by
    intro i hi
    rw [add_assoc, h.bytes (u.length + i) (by rw [length_append]; omega),
      getElem_append_right (le_add_right _ _), getD_eq_getElem _ _ (by omega)]
    have hpre := hq.getElem (i := i) (by omega)
    rw [getElem_append_left (by omega)] at hpre
    rw [← hpre]
    congr 1
    omega
  constructor
  · unfold readInt
    rw [if_pos ⟨by omega, by omega⟩]
    refine congrArg Except.ok (word_congr fun k hk => ?_)
    rw [zero_add, ← hbyte k (by omega)]
    congr 1
  unfold readInt
  rw [if_pos ⟨by omega, by omega⟩]
  refine congrArg Except.ok (word_congr fun k hk => ?_)
  rw [← hbyte (4 + k) (by omega)]
  congr 1
  omega

theorem Holds.packet (h : Holds rb (u ++ (q.bytes ++ v))) :
    rb.readBytes ((rb.readPtr : Int) + u.length) q.bytes.length = .ok q.bytes := by
  have hfits := h.fits
  rw [length_append, length_append] at hfits
  unfold readBytes
  rw [if_pos ⟨by omega, by omega⟩]
  refine congrArg Except.ok (ext_getElem (by simp) fun i hi hi' => ?_)
  rw [getElem_map, getElem_range]
  have hbyte := h.bytes (u.length + i) (by rw [length_append, length_append]; omega)
  rw [getElem_append_right (le_add_right _ _), getElem_append_left (by omega)] at hbyte
  rw [show ((rb.readPtr : Int) + u.length).toNat + i = rb.readPtr + (u.length + i) by omega, hbyte]
  congr 1
  omega

theorem sub_toNat {n k : Nat} (hk : k ≤ n) (hn : n < 2 ^ 64) :
    (BitVec.ofNat 64 n - BitVec.ofNat 64 k).toNat = n - k := by
  rw [toNat_sub, toNat_ofNat, toNat_ofNat]
  omega

/-- The lengths that fit an `int`. -/
theorem Packet.signExtend_length (q : Packet env) (h : q.bytes.length < 2 ^ 31) :
    (word (fun i => q.bytes.getD i 0#8) 4).signExtend 64 = BitVec.ofNat 64 q.bytes.length ∧
      (word (fun i => q.bytes.getD i 0#8) 4).toInt = q.bytes.length := by
  have hint : (word (fun i => q.bytes.getD i 0#8) 4).toInt = q.bytes.length := by
    rw [toInt_eq_toNat_cond, q.length_eq, if_pos (by omega)]
  refine ⟨?_, hint⟩
  rw [signExtend, hint]
  exact ofInt_natCast 64 _

theorem loop_left (hlen : (u ++ v).length < 2 ^ 64) :
    (BitVec.ofNat 64 (u ++ v).length - BitVec.ofNat 64 u.length).toNat = v.length := by
  rw [sub_toNat (by simp) hlen, length_append, Nat.add_sub_cancel_left]

section loop

variable {q : Packet env} (h : Holds rb (u ++ v)) (hlen : (u ++ v).length < 2 ^ 64)
include h hlen

/-- The loop stops at a packet that is incomplete, or of another decoder. -/
theorem decodeLoop_stop (fuel : Nat) (hq : v <+: q.bytes ++ w)
    (hstop : v.length < q.bytes.length ∨ q.decoder ≠ d) :
    decodeLoop (env.known d) d rb (BitVec.ofNat 64 (u ++ v).length) (fuel + 1)
      (BitVec.ofNat 64 u.length) ((rb.readPtr : Int) + u.length) =
      .ok (BitVec.ofNat 64 u.length, []) := by
  rw [decodeLoop, loop_left hlen]
  by_cases hshort : v.length < 8
  · rw [if_pos hshort]
  obtain ⟨hopcode, hlength⟩ := h.header hq (by omega)
  rw [if_neg hshort, hopcode, hlength]
  show (if v.length < _ then _ else _) = _
  rw [q.length_eq]
  by_cases hpart : v.length < q.bytes.length
  · rw [if_pos hpart]
  · rw [if_neg hpart]
    rw [q.known_iff, decide_eq_false (hstop.resolve_left hpart)]
    rfl

theorem decodeLoop_packet (fuel : Nat) (hv : v = q.bytes ++ w) (hd : q.decoder = d) :
    decodeLoop (env.known d) d rb (BitVec.ofNat 64 (u ++ v).length) (fuel + 1)
        (BitVec.ofNat 64 u.length) ((rb.readPtr : Int) + u.length) =
      (decodeLoop (env.known d) d rb (BitVec.ofNat 64 (u ++ v).length) fuel
        (BitVec.ofNat 64 u.length + (word (fun i => q.bytes.getD i 0#8) 4).signExtend 64)
        ((rb.readPtr : Int) + u.length + (word (fun i => q.bytes.getD i 0#8) 4).toInt)).map
        fun r => (r.1, q.dispatch :: r.2) := by
  have hheader := q.header
  have hle : q.bytes.length ≤ v.length := by
    rw [hv, length_append]
    omega
  obtain ⟨hopcode, hlength⟩ := h.header (q := q) (w := w) (hv ▸ prefix_rfl) (by omega)
  have hknown : env.known d (word (fun i => q.bytes.getD i 0#8) 0) = true := by
    rw [q.known_iff, decide_eq_true hd]
  rw [hv] at h
  rw [decodeLoop, loop_left hlen, if_neg (by omega), hopcode, hlength]
  show (if v.length < _ then _ else _) = _
  rw [q.length_eq, if_neg (by omega)]
  rw [if_pos hknown, h.packet]
  generalize decodeLoop _ _ _ _ _ _ _ = r
  cases r with
  | error e => rfl
  | ok r =>
    rw [← hd]
    rfl

end loop

/-- The packets that are complete in the buffer have lengths that fit an `int`. -/
def Small (w : List Byte) (qs : List (Packet env)) : Prop :=
  ∀ done q rest, qs = done ++ q :: rest → stream done ++ q.bytes <+: w → q.bytes.length < 2 ^ 31

theorem Small.drop (h : Small (stream done ++ w) (done ++ qs)) : Small w qs := by
  rintro done' q rest rfl hq
  refine h (done ++ done') q rest (List.append_assoc _ _ _).symm ?_
  rw [stream_append, List.append_assoc]
  exact (prefix_append_right_inj _).2 hq

/-- A decoder carries out the packets that it knows, up to one where it stops. -/
theorem decodeLoop_eq (fuel : Nat) (h : Holds rb (u ++ v)) (hlen : (u ++ v).length < 2 ^ 64)
    (hv : v <+: stream qs) (hsmall : Small v qs) (hfuel : v.length < fuel) :
    ∃ done qs' v', qs = done ++ qs' ∧ v = stream done ++ v' ∧ Stops d v' qs' ∧
      decodeLoop (env.known d) d rb (BitVec.ofNat 64 (u ++ v).length) fuel
          (BitVec.ofNat 64 u.length) ((rb.readPtr : Int) + u.length) =
        .ok (BitVec.ofNat 64 (u ++ stream done).length, done.map Packet.dispatch) := by
  obtain ⟨fuel, rfl⟩ : ∃ n, fuel = n + 1 := ⟨fuel - 1, by omega⟩
  induction qs generalizing u v fuel with
  | nil =>
    obtain rfl : v = [] := prefix_nil.1 hv
    refine ⟨[], [], [], rfl, rfl, rfl, ?_⟩
    rw [decodeLoop, if_pos (by simp), stream_nil, append_nil]
    rfl
  | cons q qs ih =>
    have hheader := q.header
    by_cases hstop : v.length < q.bytes.length ∨ q.decoder ≠ d
    · refine ⟨[], q :: qs, v, rfl, rfl, hstop, ?_⟩
      rw [decodeLoop_stop h hlen fuel hv hstop, stream_nil, append_nil]
      rfl
    rw [not_or, not_lt, not_not] at hstop
    obtain ⟨hle, hd⟩ := hstop
    obtain ⟨v₁, rfl⟩ : ∃ v₁, v = q.bytes ++ v₁ := by
      obtain ⟨t, ht⟩ := prefix_of_prefix_length_le (prefix_append q.bytes (stream qs)) hv
        hle
      exact ⟨t, ht.symm⟩
    obtain ⟨hext, hint⟩ := q.signExtend_length (hsmall [] q qs rfl (prefix_append _ _))
    have hv₁ : v₁ <+: stream qs := (prefix_append_right_inj q.bytes).1 hv
    have hassoc : u ++ (q.bytes ++ v₁) = u ++ q.bytes ++ v₁ := (List.append_assoc _ _ _).symm
    rw [length_append] at hfuel
    obtain ⟨fuel, rfl⟩ : ∃ n, fuel = n + 1 := ⟨fuel - 1, by omega⟩
    obtain ⟨done, qs', v', rfl, rfl, hstops, heq⟩ :=
      ih (u := u ++ q.bytes) (v := v₁) (by rw [← hassoc]; exact h)
        (by rw [← hassoc]; exact hlen) hv₁
        (show Small (stream [q] ++ v₁) ([q] ++ qs) by simpa using hsmall).drop fuel (by omega)
    refine ⟨q :: done, qs', v', rfl, by rw [stream_cons, List.append_assoc], hstops, ?_⟩
    have hpos : BitVec.ofNat 64 u.length + BitVec.ofNat 64 q.bytes.length =
        BitVec.ofNat 64 (u ++ q.bytes).length := by
      rw [length_append, ofNat_add]
    have hptr : (rb.readPtr : Int) + u.length + q.bytes.length =
        (rb.readPtr : Int) + (u ++ q.bytes).length := by
      rw [length_append]
      omega
    rw [decodeLoop_packet h hlen (fuel + 1) rfl hd, hext, hint, hpos, hptr, hassoc, heq,
      stream_cons, ← List.append_assoc]
    rfl

/-- What a decoder, or all of them, have carried out of the packets in a buffer. -/
structure Carried (rb rb' : ReadBuffer) (w : List Byte) (qs done qs' : List (Packet env))
    (w' : List Byte) : Prop where
  packets : qs = done ++ qs'
  bytes : w = stream done ++ w'
  holds : Holds rb' w'
  size : rb'.size = rb.size

section

variable (h : Carried rb rb' w qs done qs' w')
include h

theorem Carried.remaining (hw : w <+: stream qs) : w' <+: stream qs' := by
  rw [h.packets, h.bytes, stream_append] at hw
  exact (prefix_append_right_inj _).1 hw

theorem Carried.trans {rb'' : ReadBuffer} {done' qs'' : List (Packet env)} {w'' : List Byte}
    (h' : Carried rb' rb'' w' qs' done' qs'' w'') :
    Carried rb rb'' w qs (done ++ done') qs'' w'' where
  packets := by rw [h.packets, h'.packets, List.append_assoc]
  bytes := by rw [h.bytes, h'.bytes, stream_append, List.append_assoc]
  holds := h'.holds
  size := h'.size.trans h.size

theorem Carried.small (hsmall : Small w qs) : Small w' qs' := by
  rw [h.packets, h.bytes] at hsmall
  exact hsmall.drop

end

theorem turn_eq (d : Decoder) (fuel : Nat) (h : Holds rb w) (hlen : w.length < 2 ^ 64)
    (hw : w <+: stream qs) (hsmall : Small w qs) (hfuel : w.length < fuel) :
    ∃ done qs' w' rb', Carried rb rb' w qs done qs' w' ∧ Stops d w' qs' ∧
      turn env fuel d rb = .ok (decide (done ≠ []), rb', done.map Packet.dispatch) := by
  have hdecode : ∃ done qs' w', qs = done ++ qs' ∧ w = stream done ++ w' ∧ Stops d w' qs' ∧
      decode env fuel d rb =
        .ok (BitVec.ofNat 64 (stream done).length, done.map Packet.dispatch) := by
    unfold decode
    rw [h.valid]
    by_cases hshort : w.length < 8
    · refine ⟨[], qs, w, rfl, rfl, ?_, if_pos hshort⟩
      cases qs with
      | nil => exact prefix_nil.1 hw
      | cons q qs => exact .inl (lt_of_lt_of_le hshort q.header)
    rw [if_neg hshort]
    obtain ⟨done, qs', w', hqs, hw', hstops, heq⟩ :=
      decodeLoop_eq (d := d) (u := []) fuel h hlen hw hsmall hfuel
    refine ⟨done, qs', w', hqs, hw', hstops, ?_⟩
    exact heq
  obtain ⟨done, qs', w', hqs, hw', hstops, heq⟩ := hdecode
  have hlast : (BitVec.ofNat 64 (stream done).length).toNat = (stream done).length := by
    rw [hw', length_append] at hlen
    rw [toNat_ofNat, mod_eq_of_lt (by omega)]
  unfold turn
  rw [heq]
  show ∃ done qs' w' rb', _ ∧ _ ∧ (if 0 < (BitVec.ofNat 64 _).toNat then _ else _) = _
  rw [hlast]
  cases done with
  | nil =>
    refine ⟨[], qs', w', rb, ⟨hqs, hw', ?_, rfl⟩, hstops, rfl⟩
    rw [← show w = w' from hw']
    exact h
  | cons q done =>
    have hpos : 0 < (stream (q :: done)).length := by
      have := q.header
      rw [stream_cons, length_append]
      omega
    rw [hw'] at h
    obtain ⟨rb', hconsume, hholds, hsize⟩ := h.consume
    refine ⟨q :: done, qs', w', rb', ⟨hqs, hw', hholds, hsize⟩, hstops, ?_⟩
    rw [if_pos hpos, hconsume]
    rfl

/-- What is left is less than a packet. -/
def Incomplete (w : List Byte) : List (Packet env) → Prop
  | [] => w = []
  | q :: _ => w.length < q.bytes.length

theorem forall_decoder {P : Decoder → Prop} (hgl : P .gl) (hgl2 : P .gl2) (hrc : P .rc)
    (d : Decoder) : P d := by
  cases d with
  | gl => exact hgl
  | gl2 => exact hgl2
  | rc => exact hrc

theorem incomplete_of_stops (h : ∀ d, Stops d w qs) : Incomplete w qs := by
  cases qs with
  | nil => exact h .gl
  | cons q qs => exact (h q.decoder).resolve_right fun hne => hne rfl

theorem turns_eq (fuel n : Nat) (h : Holds rb w) (hlen : w.length < 2 ^ 64) (hw : w <+: stream qs)
    (hsmall : Small w qs) (hfuel : w.length < fuel) (hn : w.length < n) :
    ∃ done qs' w' rb', Carried rb rb' w qs done qs' w' ∧ Incomplete w' qs' ∧
      turns env fuel n rb = .ok (rb', done.map Packet.dispatch) := by
  induction n generalizing rb w qs with
  | zero => cases hn
  | succ n ih =>
    obtain ⟨done₁, qs₁, w₁, rb₁, hc₁, hs₁, heq₁⟩ := turn_eq .gl fuel h hlen hw hsmall hfuel
    have hlen₁ : w₁.length ≤ w.length := by rw [hc₁.bytes, length_append]; omega
    obtain ⟨done₂, qs₂, w₂, rb₂, hc₂, hs₂, heq₂⟩ :=
      turn_eq .gl2 fuel hc₁.holds (by omega) (hc₁.remaining hw) (hc₁.small hsmall)
        (by omega)
    have hc₁₂ := hc₁.trans hc₂
    have hlen₂ : w₂.length ≤ w₁.length := by rw [hc₂.bytes, length_append]; omega
    obtain ⟨done₃, qs₃, w₃, rb₃, hc₃, hs₃, heq₃⟩ :=
      turn_eq .rc fuel hc₂.holds (by omega) (hc₁₂.remaining hw) (hc₁₂.small hsmall)
        (by omega)
    have hc := hc₁₂.trans hc₃
    rw [turns, heq₁]
    show ∃ done qs' w' rb', _ ∧ _ ∧ (turn _ _ _ rb₁ >>= _) = _
    rw [heq₂]
    show ∃ done qs' w' rb', _ ∧ _ ∧ (turn _ _ _ rb₂ >>= _) = _
    rw [heq₃]
    show ∃ done qs' w' rb', _ ∧ _ ∧ (if (decide (done₁ ≠ []) || decide (done₂ ≠ []) ||
      decide (done₃ ≠ [])) = true then _ else _) = _
    by_cases hnone : done₁ = [] ∧ done₂ = [] ∧ done₃ = []
    · obtain ⟨rfl, rfl, rfl⟩ := hnone
      -- all three have stopped at the same packet
      obtain rfl : qs₁ = qs₂ := hc₂.packets
      obtain rfl : qs₁ = qs₃ := hc₃.packets
      obtain rfl : w₁ = w₂ := hc₂.bytes
      obtain rfl : w₁ = w₃ := hc₃.bytes
      exact ⟨[], qs₁, w₁, rb₃, hc, incomplete_of_stops (forall_decoder hs₁ hs₂ hs₃), rfl⟩
    · have hprogress : (decide (done₁ ≠ []) || decide (done₂ ≠ []) || decide (done₃ ≠ [])) =
          true := by
        simp only [Bool.or_eq_true, decide_eq_true_eq]
        tauto
      have hless : w₃.length < w.length := by
        have hne : done₁ ++ done₂ ++ done₃ ≠ [] := by
          simp only [ne_eq, append_eq_nil_iff]
          tauto
        obtain ⟨q, done, heq⟩ := exists_cons_of_ne_nil hne
        have hbytes := congrArg length hc.bytes
        have hheader := q.header
        rw [heq, stream_cons, length_append, length_append] at hbytes
        omega
      obtain ⟨done', qs', w', rb', hc', hinc, heq'⟩ := ih hc.holds (by omega) (hc.remaining hw)
        (hc.small hsmall) (by omega) (by omega)
      refine ⟨_, qs', w', rb', hc.trans hc', hinc, ?_⟩
      rw [if_pos hprogress, heq']
      show Except.ok _ = _
      simp only [map_append]

/-! ## The thread -/

/-- The state of a thread between two reads: `qs` are the packets that it has not carried out yet,
and the buffer holds less than one of them. -/
structure Waiting (s : RenderState) (w : List Byte) (qs : List (Packet env)) : Prop where
  holds : Holds s.rb w
  incomplete : Incomplete w qs
  size_pos : 0 < s.rb.size
  size_lt : s.rb.size < 2 ^ 33
  running : s.ended = false

theorem Incomplete.length_lt (h : Incomplete w qs) : w.length < 2 ^ 32 := by
  cases qs with
  | nil =>
    rw [show w = [] from h]
    exact Nat.two_pow_pos 32
  | cons q qs => exact lt_trans h q.length_lt

/-- A read, and the turns of the decoders. -/
theorem mainStep_eq (hmem : ∀ n, env.canAlloc n = true) (h : Waiting s w qs) (hwant : 0 < want)
    (hint : want < 2 ^ 31) (hinput : s.input ≠ []) (hfuel : w.length + s.input.length < fuel) :
    ∃ k, 0 < k ∧ k ≤ want ∧ ∀ qs' : List (Packet env), w ++ s.input.take k <+: stream qs' →
        Small (w ++ s.input.take k) qs' →
        ∃ done rest w' s', qs' = done ++ rest ∧ w ++ s.input.take k = stream done ++ w' ∧
          Waiting s' w' rest ∧ s'.input = s.input.drop k ∧
          s'.out = s.out ++ done.map Packet.dispatch ∧ mainStep env fuel s want = .ok s' := by
  obtain ⟨k, stat, rb, hk, hk', heq, hstat, hholds, -, hpos, hlt⟩ :=
    getData_eq hmem s.input h.holds h.incomplete.length_lt h.size_pos
      h.size_lt hwant hint
  have htake : (s.input.take k).length ≤ s.input.length := length_take_le' _ _
  have htake' : (s.input.take k).length ≤ k := length_take_le _ _
  have hw := h.incomplete.length_lt
  refine ⟨k, hk, hk', fun qs' hpre hsmall => ?_⟩
  obtain ⟨done, rest, w', rb', hc, hinc, hturns⟩ := turns_eq fuel fuel hholds
    (by rw [length_append]; omega) hpre hsmall (by rw [length_append]; omega)
    (by rw [length_append]; omega)
  refine ⟨done, rest, w', { s with
    rb := rb', input := s.input.drop k, out := s.out ++ done.map Packet.dispatch }, hc.packets,
    hc.bytes, ⟨hc.holds, hinc, ?_, ?_, h.running⟩, rfl, rfl, ?_⟩
  · rw [hc.size]
    exact hpos
  · rw [hc.size]
    exact hlt
  unfold mainStep
  rw [h.running, heq]
  show (if stat ≤ 0 then _ else turns env fuel fuel rb >>= _) = _
  rw [if_neg (Int.not_le.2 (hstat.2 hinput)), hturns]
  rfl

theorem mainStep_end (hmem : ∀ n, env.canAlloc n = true) (fuel : Nat) (h : Waiting s w qs)
    (hwant : 0 < want) (hint : want < 2 ^ 31) (hinput : s.input = []) :
    ∃ rb, rb.validData = w.length ∧
      mainStep env fuel s want = .ok { s with rb := rb, ended := true } := by
  obtain ⟨k, stat, rb, -, -, heq, hstat, hholds, -, -, -⟩ :=
    getData_eq hmem s.input h.holds h.incomplete.length_lt h.size_pos h.size_lt hwant hint
  rw [hinput, take_nil, append_nil] at hholds
  refine ⟨rb, hholds.valid, ?_⟩
  unfold mainStep
  rw [h.running, heq]
  show (if stat ≤ 0 then _ else _) = _
  rw [if_pos (Int.not_lt.1 fun hpos => hstat.1 hpos hinput), hinput, drop_nil]

/-- What holds between reads, for packets whose lengths fit an `int`. -/
def Progress (ps : List (Packet env)) (s : RenderState) : Prop :=
  (∃ done qs w, ps = done ++ qs ∧ s.out = done.map Packet.dispatch ∧ w ++ s.input = stream qs ∧
    Waiting s w qs) ∨
  s.ended = true ∧ s.input = [] ∧ s.out = ps.map Packet.dispatch ∧ s.rb.validData = 0

/-- A stream that has come to its end leaves nothing behind. -/
theorem Incomplete.eq_nil (h : Incomplete w qs) (hw : w = stream qs) : qs = [] := by
  cases qs with
  | nil => rfl
  | cons q qs =>
    have hlt : w.length < q.bytes.length := h
    rw [hw, stream_cons, length_append] at hlt
    omega

theorem Progress.step (hmem : ∀ n, env.canAlloc n = true)
    (hsmall : ∀ p ∈ ps, p.bytes.length < 2 ^ 31) (hfuel : (stream ps).length < fuel)
    (h : Progress ps s) (hwant : 0 < want) (hint : want < 2 ^ 31) :
    ∃ s', mainStep env fuel s want = .ok s' ∧ Progress ps s' ∧
      s'.input.length ≤ s.input.length - 1 := by
  rcases h with ⟨done, qs, w, rfl, hout, hstream, hwait⟩ | ⟨hended, hinput, hout, hvalid⟩
  · by_cases hinput : s.input = []
    · obtain ⟨rb, hrb, heq⟩ := mainStep_end hmem fuel hwait hwant hint hinput
      rw [hinput, append_nil] at hstream
      obtain rfl := hwait.incomplete.eq_nil hstream
      refine ⟨_, heq, .inr ⟨rfl, hinput, by rw [append_nil]; exact hout, ?_⟩, ?_⟩
      · rw [hstream] at hrb
        exact hrb
      · rw [hinput]
        exact zero_le _
    have hlen : w.length + s.input.length < fuel := by
      have := congrArg length hstream
      rw [length_append] at this
      rw [stream_append, length_append] at hfuel
      omega
    obtain ⟨k, hk, -, hstep⟩ := mainStep_eq hmem hwait hwant hint hinput hlen
    have hsplit : w ++ s.input.take k ++ s.input.drop k = stream qs := by
      rw [List.append_assoc, take_append_drop, hstream]
    obtain ⟨done', rest, w', s', hqs, hw', hwait', hinput', hout', heq⟩ := hstep qs
      ⟨_, hsplit⟩ fun d q r heq _ => hsmall q (by rw [heq]; simp)
    refine ⟨s', heq, .inl ⟨done ++ done', rest, w', ?_, ?_, ?_, hwait'⟩, ?_⟩
    · rw [hqs, List.append_assoc]
    · rw [hout', hout, map_append]
    · rw [hw', hqs, stream_append, List.append_assoc] at hsplit
      rw [hinput']
      exact append_cancel_left hsplit
    · rw [hinput', length_drop]
      omega
  · refine ⟨s, ?_, .inr ⟨hended, hinput, hout, hvalid⟩, ?_⟩
    · unfold mainStep
      rw [hended]
      rfl
    · rw [hinput]
      exact zero_le _

theorem Progress.run (hmem : ∀ n, env.canAlloc n = true)
    (hsmall : ∀ p ∈ ps, p.bytes.length < 2 ^ 31) (hfuel : (stream ps).length < fuel)
    {reads : List Nat} (h : Progress ps s) (hreads : ∀ n ∈ reads, 0 < n ∧ n < 2 ^ 31) :
    ∃ s', mainLoop env fuel s reads = .ok s' ∧ Progress ps s' ∧
      s'.input.length ≤ s.input.length - reads.length := by
  induction reads generalizing s with
  | nil => exact ⟨s, rfl, h, le_refl _⟩
  | cons n reads ih =>
    obtain ⟨hpos, hint⟩ := hreads n mem_cons_self
    obtain ⟨s₁, heq₁, h₁, hle₁⟩ := h.step hmem hsmall hfuel hpos hint
    obtain ⟨s₂, heq₂, h₂, hle₂⟩ := ih h₁ fun m hm => hreads m (mem_cons_of_mem _ hm)
    refine ⟨s₂, ?_, h₂, ?_⟩
    · unfold mainLoop
      rw [foldlM_cons, heq₁]
      exact heq₂
    · rw [length_cons]
      omega

/-! ## Packets that are too long -/

theorem turn_other (h : Holds rb q.bytes) (hd : q.decoder ≠ d) :
    turn env (fuel + 1) d rb = .ok (false, rb, []) := by
  have hlen : ([] ++ q.bytes).length < 2 ^ 64 := lt_trans q.length_lt (by decide)
  have hstop := decodeLoop_stop (u := []) (w := []) h hlen fuel (prefix_append _ _) (.inr hd)
  have hdecode : decode env (fuel + 1) d rb = .ok (0#64, []) := by
    unfold decode
    rw [h.valid]
    split
    · rfl
    · exact hstop
  unfold turn
  rw [hdecode]
  rfl

/-- The decoder that knows the packet moves on by a negative number, to before the buffer. -/
theorem turn_long (h : Holds rb q.bytes) (hptr : rb.readPtr = 0) (hlong : 2 ^ 31 ≤ q.bytes.length) :
    turn env (fuel + 2) q.decoder rb = .error .undefined := by
  have hlt := q.length_lt
  have hlen : ([] ++ q.bytes).length < 2 ^ 64 := lt_trans q.length_lt (by decide)
  have hint : (word (fun i => q.bytes.getD i 0#8) 4).toInt = q.bytes.length - 2 ^ 32 := by
    rw [toInt_eq_toNat_cond, q.length_eq, if_neg (by omega)]
    rfl
  have hext : ((word (fun i => q.bytes.getD i 0#8) 4).signExtend 64).toNat =
      q.bytes.length + (2 ^ 64 - 2 ^ 32) := by
    rw [signExtend, toNat_ofInt]
    omega
  have hpacket := decodeLoop_packet (u := []) (w := []) (d := q.decoder) h hlen (fuel + 1)
    (append_nil _).symm rfl
  rw [nil_append, length_nil, hptr, Int.natCast_zero, Int.add_zero, Int.zero_add,
    BitVec.zero_add, hint] at hpacket
  have hnext : decodeLoop (env.known q.decoder) q.decoder rb (BitVec.ofNat 64 q.bytes.length)
      (fuel + 1) ((word (fun i => q.bytes.getD i 0#8) 4).signExtend 64)
      ((q.bytes.length : Int) - 2 ^ 32) = .error .undefined := by
    have hleft : 8 ≤ (BitVec.ofNat 64 q.bytes.length -
        (word (fun i => q.bytes.getD i 0#8) 4).signExtend 64).toNat := by
      rw [toNat_sub, toNat_ofNat]
      omega
    have hread : rb.readInt ((q.bytes.length : Int) - 2 ^ 32) = .error .undefined :=
      if_neg (by omega)
    rw [decodeLoop, if_neg (by omega), hread]
    rfl
  have hdecode : decode env (fuel + 2) q.decoder rb = .error .undefined := by
    unfold decode
    rw [h.valid, if_neg (by omega), hptr]
    rw [hnext] at hpacket
    exact hpacket
  unfold turn
  rw [hdecode]
  rfl

theorem turns_long {n : Nat} (h : Holds rb q.bytes) (hptr : rb.readPtr = 0)
    (hlong : 2 ^ 31 ≤ q.bytes.length) : turns env (fuel + 2) (n + 1) rb = .error .undefined := by
  have hturn : turn env (fuel + 2) q.decoder rb = .error .undefined := turn_long h hptr hlong
  rw [turns]
  cases hd : q.decoder with
  | gl =>
    rw [hd] at hturn
    rw [hturn]
    rfl
  | gl2 =>
    rw [hd] at hturn
    rw [turn_other h (by rw [hd]; decide)]
    show (turn _ _ _ _ >>= _) = _
    rw [hturn]
    rfl
  | rc =>
    rw [hd] at hturn
    rw [turn_other h (by rw [hd]; decide)]
    show (turn _ _ _ _ >>= _) = _
    rw [turn_other h (by rw [hd]; decide)]
    show (turn _ _ _ _ >>= _) = _
    rw [hturn]
    rfl

theorem incomplete_nil (qs : List (Packet env)) : Incomplete [] qs := by
  cases qs with
  | nil => rfl
  | cons q qs => exact lt_of_lt_of_le (by decide) q.header

theorem waiting_start (buf : Nat → Byte) (input : List Byte) (qs : List (Packet env)) :
    Waiting (.start buf input) [] qs :=
  ⟨⟨rfl, nofun, zero_le _⟩, incomplete_nil qs, show 0 < streamBufferSize by decide,
    show streamBufferSize < 2 ^ 33 by decide, rfl⟩

/-- A read that completes a packet that is too long. -/
theorem mainStep_long (hmem : ∀ n, env.canAlloc n = true) (h : Waiting s w qs) {x : Byte}
    {b : List Byte} (hinput : s.input = x :: b) (hlong : 2 ^ 31 ≤ q.bytes.length)
    (hw : w ++ [x] = q.bytes) (hfuel : w.length + s.input.length < fuel) :
    mainStep env fuel s 1 = .error .undefined := by
  obtain ⟨k, stat, rb, hk, hk', heq, hstat, hholds, hptr, -, -⟩ := getData_eq hmem s.input h.holds
    h.incomplete.length_lt h.size_pos h.size_lt (succ_pos 0) (by decide)
  obtain rfl : k = 1 := by omega
  rw [hinput] at heq hstat hholds
  change Holds rb (w ++ [x]) at hholds
  rw [hw] at hholds
  obtain ⟨fuel, rfl⟩ : ∃ n, fuel = n + 2 := by
    have := congrArg length hw
    rw [length_append, length_singleton] at this
    exact ⟨fuel - 2, by omega⟩
  unfold mainStep
  rw [h.running, hinput, heq]
  show (if stat ≤ 0 then _ else turns env (fuel + 2) (fuel + 2) rb >>= _) = _
  rw [if_neg (Int.not_le.2 (hstat.2 (cons_ne_nil _ _))), turns_long hholds hptr hlong]
  rfl

/-- A packet that is too long and complete is the first, and has just become complete. -/
theorem Incomplete.first_long (h : Incomplete w qs) {x : Byte} (hlong : ¬Small (w ++ [x]) qs) :
    ∃ q rest, qs = q :: rest ∧ 2 ^ 31 ≤ q.bytes.length ∧ w ++ [x] = q.bytes := by
  simp only [Small, not_forall, not_lt] at hlong
  obtain ⟨done, q, rest, rfl, hpre, hlong⟩ := hlong
  have hle := hpre.length_le
  rw [length_append, length_append, length_singleton] at hle
  cases done with
  | nil =>
    have hlt : w.length < q.bytes.length := h
    exact ⟨q, rest, rfl, hlong, (hpre.eq_of_length_le (by
      rw [length_append]
      exact hlt)).symm⟩
  | cons p done =>
    have hlt : w.length < p.bytes.length := h
    rw [stream_cons, length_append] at hle
    omega

/-- What is left of a stream with a packet that is too long, read byte by byte. -/
theorem mainLoop_long (hmem : ∀ n, env.canAlloc n = true) (h : Waiting s w qs)
    (hw : w ++ s.input = stream qs) (hfuel : (stream qs).length < fuel)
    (hlong : ∃ q ∈ qs, 2 ^ 31 ≤ q.bytes.length) :
    ∃ n, mainLoop env fuel s (List.replicate n 1) = .error .undefined := by
  induction hb : s.input generalizing s w qs with
  | nil =>
    obtain ⟨q, hq, -⟩ := hlong
    rw [hb, append_nil] at hw
    rw [h.incomplete.eq_nil hw] at hq
    cases hq
  | cons x b ih =>
    have hlen : w.length + s.input.length < fuel := by rwa [← length_append, hw]
    -- the packet becomes complete with this byte, or with a later one
    by_cases hsmall : Small (w ++ [x]) qs
    · obtain ⟨k, hk, hk', hstep⟩ := mainStep_eq hmem h (succ_pos 0) (by decide)
        (by rw [hb]; exact cons_ne_nil _ _) hlen
      obtain rfl : k = 1 := by omega
      rw [hb] at hstep
      have hsplit : w ++ [x] ++ b = stream qs := by
        rw [List.append_assoc, singleton_append, ← hb, hw]
      obtain ⟨done, rest, w', s', rfl, hw', hwait', hinput', -, heq⟩ := hstep qs ⟨b, hsplit⟩ hsmall
      change w ++ [x] = _ at hw'
      rw [hw', stream_append, List.append_assoc] at hsplit
      rw [stream_append, length_append] at hfuel
      obtain ⟨q, hq, hlong⟩ := hlong
      have hrest : q ∈ rest := by
        refine (mem_append.1 hq).resolve_left fun hdone => ?_
        obtain ⟨d, d', rfl⟩ := append_of_mem hdone
        refine absurd (hsmall d q (d' ++ rest) (by simp) ?_) (not_lt.2 hlong)
        rw [hw', stream_append, stream_cons, ← List.append_assoc]
        exact (prefix_append _ _).trans (prefix_append _ _)
      obtain ⟨n, hn⟩ := ih hwait' (by rw [hinput']; exact append_cancel_left hsplit) (by omega)
        ⟨q, hrest, hlong⟩ hinput'
      refine ⟨n + 1, ?_⟩
      unfold mainLoop
      rw [List.replicate_succ, foldlM_cons, heq]
      exact hn
    · obtain ⟨q, rest, rfl, hlong, hq⟩ := h.incomplete.first_long hsmall
      refine ⟨1, ?_⟩
      unfold mainLoop
      rw [List.replicate_one, foldlM_cons, mainStep_long hmem h hb hlong hq hlen]
      rfl

theorem mainLoop_undefined (hmem : ∀ n, env.canAlloc n = true) (buf : Nat → Byte)
    (hfuel : (stream ps).length < fuel) (h : ∃ p ∈ ps, 2 ^ 31 ≤ p.bytes.length) :
    ∃ n, mainLoop env fuel (.start buf (stream ps)) (List.replicate n 1) = .error .undefined :=
  mainLoop_long hmem (waiting_start buf (stream ps) ps) rfl hfuel h

/-- The order and the number of the dispatched packets do not depend on the reads: however the
stream is split, all packets are carried out once and in order, and nothing of them is left in the
buffer. This is so exactly if the lengths of all packets fit an `int`. -/
theorem stream_dispatched_iff (hmem : ∀ n, env.canAlloc n = true) (buf : Nat → Byte)
    (ps : List (Packet env)) (hfuel : (stream ps).length < fuel) :
    (∀ reads : List Nat, (∀ n ∈ reads, 0 < n ∧ n < 2 ^ 31) →
      ∃ s, mainLoop env fuel (.start buf (stream ps)) reads = .ok s ∧
        ((stream ps).length ≤ reads.length → s.input = []) ∧
        (s.input = [] → s.out = ps.map Packet.dispatch ∧ s.rb.validData = 0)) ↔
      ∀ p ∈ ps, p.bytes.length < 2 ^ 31 := by
  constructor
  · intro h
    by_contra hlong
    simp only [not_forall, not_lt] at hlong
    obtain ⟨p, hp, hlong⟩ := hlong
    obtain ⟨n, heq⟩ := mainLoop_undefined hmem buf hfuel ⟨p, hp, hlong⟩
    obtain ⟨s, hs, -⟩ := h (List.replicate n 1) fun m hm => by
      rw [eq_of_mem_replicate hm]
      decide
    rw [heq] at hs
    cases hs
  · intro hsmall reads hreads
    obtain ⟨s, heq, hprogress, hle⟩ := Progress.run hmem hsmall hfuel
      (.inl ⟨[], ps, [], rfl, rfl, rfl, waiting_start buf (stream ps) ps⟩)
      hreads
    refine ⟨s, heq, fun hall => ?_, fun hinput => ?_⟩
    · have hzero : (RenderState.start buf (stream ps)).input.length ≤ reads.length := hall
      exact eq_nil_of_length_eq_zero (by omega)
    rcases hprogress with ⟨done, qs, w, hps, hout, hstream, hwait⟩ | ⟨-, -, hout, hvalid⟩
    · rw [hinput, append_nil] at hstream
      obtain rfl := hwait.incomplete.eq_nil hstream
      rw [append_nil] at hps
      rw [hps]
      refine ⟨hout, ?_⟩
      rw [hwait.holds.valid, hstream]
      rfl
    · exact ⟨hout, hvalid⟩

/-- Decoders that know one opcode each: `OP_glAlphaFunc`, `OP_glActiveTexture`,
`OP_rcGetRendererVersion`. -/
def threeOpcodes : RenderEnv where
  known := fun d opcode =>
    match d with
    | .gl => opcode = 1024#32
    | .gl2 => opcode = 2048#32
    | .rc => opcode = 10000#32
  canAlloc := fun _ => true

/-- The header of an `OP_glAlphaFunc` packet of 2^31 bytes, and a payload. -/
def longBytes (n : Nat) : List Byte :=
  [0#8, 4#8, 0#8, 0#8, 0#8, 0#8, 0#8, 128#8] ++ List.replicate n 0#8

theorem length_longBytes (n : Nat) : (longBytes n).length = 8 + n := by
  rw [longBytes, length_append, length_replicate]
  rfl

/-- An `OP_glAlphaFunc` packet of 2^31 bytes. -/
def longPacket : Packet threeOpcodes where
  bytes := longBytes (2 ^ 31 - 8)
  decoder := .gl
  header := by
    rw [length_longBytes]
    exact Nat.le_add_right _ _
  length_eq := by
    rw [length_longBytes]
    rfl
  known_iff := forall_decoder rfl rfl rfl

theorem length_longPacket : longPacket.bytes.length = 2 ^ 31 := length_longBytes _

/-- A stream of one packet of 2^31 bytes, read byte by byte: the decoder moves on to before its
buffer. -/
theorem long_packet_undefined : ∃ n, mainLoop threeOpcodes (2 ^ 31 + 1)
    (.start (fun _ => 0#8) (stream [longPacket])) (List.replicate n 1) = .error .undefined := by
  apply mainLoop_undefined fun _ => rfl
  · rw [stream_cons, stream_nil, append_nil, length_longPacket]
    exact lt_succ_self _
  · exact ⟨longPacket, mem_singleton.2 rfl, le_of_eq length_longPacket.symm⟩

/-- An `OP_rcGetRendererVersion` packet and an `OP_glAlphaFunc` packet. -/
def twoPackets : List (Packet threeOpcodes) :=
  [{ bytes := [16#8, 39#8, 0#8, 0#8, 8#8, 0#8, 0#8, 0#8]
     decoder := .rc
     header := by decide
     length_eq := rfl
     known_iff := forall_decoder rfl rfl rfl },
    { bytes := [0#8, 4#8, 0#8, 0#8, 10#8, 0#8, 0#8, 0#8, 7#8, 7#8]
      decoder := .gl
      header := by decide
      length_eq := rfl
      known_iff := forall_decoder rfl rfl rfl }]

/-- Two packets that are read in three parts. -/
theorem stream_dispatched_twoPackets : ∃ s, mainLoop threeOpcodes 100
    (.start (fun _ => 0#8) (stream twoPackets)) [5, 9, 4] = .ok s ∧ s.input = [] ∧
      s.out = twoPackets.map Packet.dispatch ∧ s.rb.validData = 0 := by
  have hsmall : ∀ p ∈ twoPackets, p.bytes.length < 2 ^ 31 := by
    rintro p (_ | ⟨_, _ | ⟨_, hp⟩⟩)
    · decide
    · decide
    · cases hp
  obtain ⟨s, heq, -, hdone⟩ := (stream_dispatched_iff (fun _ => rfl) (fun _ => 0#8) twoPackets
    (show 18 < 100 by decide)).2 hsmall [5, 9, 4] (by decide)
  have hinput :
      (mainLoop threeOpcodes 100 (.start (fun _ => 0#8) (stream twoPackets)) [5, 9, 4]).map
      (fun s => s.input) = .ok [] := by
    rfl
  rw [heq] at hinput
  have hinput : s.input = [] := Except.ok.inj hinput
  exact ⟨s, heq, hinput, hdone hinput⟩

end QemuAndroid.Render
