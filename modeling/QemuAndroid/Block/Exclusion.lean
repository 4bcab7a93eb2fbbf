import QemuAndroid.Block.Serialise
import QemuAndroid.Lib.Ranked

/-!
# Serialising requests exclude overlapping ones

When a request gives up control it either waits for a request that does not wait itself, or every
request that conflicts with it waits (`Parked`).  So a serialising request keeps the blocks of its
range to itself from its first wait to its end, and never has to wait for them again.
-/

namespace QemuAndroid.Block

open Lib List Option TrackedRequest Tracked TrackState

variable {cfg : TrackConfig} {s s' : TrackState} {self self' a b : Tracked} {req : TrackedRequest}
variable {others L L' : List Tracked} {prog : List Instr} {n n' id : Nat}

/-! ## Requests and their ranges -/

theorem TrackedRequest.overlaps_iff {x y : TrackedRequest} :
    x.overlaps y.overlapOffset y.overlapBytes = true ↔
      y.overlapOffset < x.overlapOffset + x.overlapBytes ∧
        x.overlapOffset < y.overlapOffset + y.overlapBytes := by
  unfold overlaps
  split
  · next h =>
    constructor
    · intro hfalse
      cases hfalse
    · omega
  split
  · next h =>
    constructor
    · intro hfalse
      cases hfalse
    · omega
  · next h₁ h₂ => exact iff_of_true rfl ⟨Nat.lt_of_not_le h₁, Nat.lt_of_not_le h₂⟩

theorem conflicts_comm (a b : Tracked) : a.conflicts b.req = b.conflicts a.req := by
  have hcomm : a.req.overlaps b.req.overlapOffset b.req.overlapBytes =
      b.req.overlaps a.req.overlapOffset a.req.overlapBytes := by
    rw [Bool.eq_iff_iff, overlaps_iff, overlaps_iff, and_comm]
  rw [conflicts, conflicts, hcomm, Bool.or_comm]

/-- A request that is marked again keeps its range. -/
theorem markSerialising_markSerialising (req : TrackedRequest) (align : Nat) :
    (req.markSerialising align).markSerialising align = req.markSerialising align := by
  simp only [markSerialising, min_assoc, max_assoc, min_self, max_self]

def Free (others : List Tracked) (req : TrackedRequest) : Prop :=
  ∀ r ∈ others, r.conflicts req = true → r.waitingFor ≠ none

theorem findBlocker_eq_none : findBlocker req others = none ↔ Free others req := by
  simp only [findBlocker, map_eq_none_iff, find?_eq_none, Free, Bool.and_eq_true,
    isNone_iff_eq_none, not_and, ne_eq]

theorem findBlocker_eq_some {r : Nat} (h : findBlocker req others = some r) :
    ∃ b ∈ others, b.waitingFor = none ∧ b.id = r := by
  obtain ⟨b, hfind, rfl⟩ := map_eq_some_iff.1 h
  have hb := find?_some hfind
  rw [Bool.and_eq_true, isNone_iff_eq_none] at hb
  exact ⟨b, mem_of_find?_eq_some hfind, hb.2, rfl⟩

/-! ## What requests do -/

/-- The assertions of a request hold, whatever others do.  `free` says that the requests that
conflict with its range now wait: this is so behind a wait, as long as the range stays the same. -/
def Sound (req : TrackedRequest) (free : Bool) : List Instr → Prop
  | [] => True
  | .mark align :: prog =>
    Sound (req.markSerialising align) (free && decide (req.markSerialising align = req)) prog
  | .wait check :: prog => (free = false → check.holds true req = true) ∧ Sound req true prog
  | .io :: prog => free = true ∧ Sound req true prog
  | .debugEvent :: prog => free = true ∧ Sound req true prog

theorem sound_alignedPreadv {copyOnRead free : Bool}
    (h : ∀ req', (copyOnRead = false → req' = req) → Sound req' true prog) :
    Sound req free (alignedPreadv cfg copyOnRead ++ prog) := by
  cases copyOnRead with
  | false => exact ⟨fun _ => rfl, rfl, h req fun _ => rfl⟩
  | true => exact ⟨fun _ => rfl, rfl, h _ fun hfalse => by cases hfalse⟩

theorem sound_alignedPwritev {free : Bool} (hfree : free = true ∨ req.serialising = false)
    (h : Sound req true prog) : Sound req free (alignedPwritev ++ prog) := by
  refine ⟨?_, rfl, rfl, h⟩
  intro hf
  rcases hfree with hfree | hser
  · rw [hf] at hfree
    cases hfree
  · rw [WaitCheck.holds, hser]
    rfl

variable {check : WaitCheck}

/-- A cycle of a request that may wait. -/
theorem sound_rmwRead {free : Bool}
    (hcheck : (free && decide (req.markSerialising cfg.align = req)) = false →
      check.holds true (req.markSerialising cfg.align) = true)
    (h : Sound (req.markSerialising cfg.align) true prog) :
    Sound req free (rmwRead cfg check ++ prog) := by
  refine ⟨hcheck, rfl, ?_⟩
  exact ⟨fun _ => rfl, rfl, rfl, h⟩

/-- Once a request is serialising, its cycles never wait. -/
theorem sound_rmwRead_again
    (h : Sound (req.markSerialising cfg.align) true prog) :
    Sound (req.markSerialising cfg.align) true (rmwRead cfg check ++ prog) := by
  apply sound_rmwRead
  · intro hfalse
    rw [markSerialising_markSerialising, decide_eq_true rfl] at hfalse
    cases hfalse
  · rwa [markSerialising_markSerialising]

theorem sound_alignedPwritev_last {free : Bool} (hfree : free = true ∨ req.serialising = false) :
    Sound req free alignedPwritev := by
  exact sound_alignedPwritev hfree trivial

theorem sound_pwritevScript (hreq : req.serialising = false) (offset bytes : Nat) :
    Sound req false (pwritevScript cfg offset bytes) := by
  unfold pwritevScript
  generalize decide (offset % cfg.align ≠ 0) = useLocalQiov
  cases useLocalQiov with
  | true =>
    apply sound_rmwRead (fun _ => rfl)
    split
    · exact sound_rmwRead_again (sound_alignedPwritev_last (.inl rfl))
    · exact sound_alignedPwritev_last (.inl rfl)
  | false =>
    split
    · exact sound_rmwRead (fun _ => rfl) (sound_alignedPwritev_last (.inl rfl))
    · exact sound_alignedPwritev_last (.inr hreq)

theorem sound_zeroPwritevScript (hreq : req.serialising = false) (offset bytes : Nat) :
    Sound req false (zeroPwritevScript cfg offset bytes) := by
  unfold zeroPwritevScript
  simp only [append_assoc]
  generalize bytes - _ = left
  have hrest {req' : TrackedRequest} {free : Bool}
      (hfree : free = true ∨ req'.serialising = false) :
      Sound req' free ((if cfg.align ≤ left then alignedPwritev else []) ++
        if left - alignDown left cfg.align ≠ 0 then rmwRead cfg .none ++ alignedPwritev
        else []) := by
    have htail (req' : TrackedRequest) (free : Bool) : Sound req' free
        (if left - alignDown left cfg.align ≠ 0 then rmwRead cfg .none ++ alignedPwritev
        else []) := by
      split
      · exact sound_rmwRead (fun _ => rfl) (sound_alignedPwritev_last (.inl rfl))
      · trivial
    split
    · exact sound_alignedPwritev hfree (htail ..)
    · exact htail ..
  by_cases hhead : offset % cfg.align ≠ 0
  · rw [if_pos hhead]
    exact sound_rmwRead (fun _ => rfl) (sound_alignedPwritev (.inl rfl) (hrest (.inl rfl)))
  · rw [if_neg hhead]
    exact hrest (.inr hreq)

theorem sound_script (cfg : TrackConfig) (call : Call) :
    Sound (call.begin cfg) false (call.script cfg) := by
  cases call with
  | read offset bytes copyOnRead =>
    show Sound _ false (alignedPreadv cfg copyOnRead)
    rw [← append_nil (alignedPreadv cfg copyOnRead)]
    exact sound_alignedPreadv fun _ _ => trivial
  | write offset bytes => exact sound_pwritevScript rfl offset bytes
  | writeZeroes offset bytes => exact sound_zeroPwritevScript rfl offset bytes

/-! ## Running a coroutine -/

/-- A request that gave up control will find its assertions true. -/
def Tracked.Ok (a : Tracked) : Prop :=
  match a.waitingFor, a.prog with
  | none, .io :: prog => Sound a.req true prog
  | none, .debugEvent :: prog => Sound a.req true prog
  | some _, .wait check :: prog => check.holds true a.req = true ∧ Sound a.req true prog
  | _, _ => False

theorem Tracked.Ok.of_io (h : a.Ok) (hprog : a.prog = .io :: prog ∨ a.prog = .debugEvent :: prog) :
    a.waitingFor = none ∧ Sound a.req true prog := by
  unfold Tracked.Ok at h
  cases hw : a.waitingFor with
  | none =>
    rcases hprog with hprog | hprog
    · rw [hw, hprog] at h
      exact ⟨rfl, h⟩
    · rw [hw, hprog] at h
      exact ⟨rfl, h⟩
  | some w =>
    rcases hprog with hprog | hprog
    · rw [hw, hprog] at h
      exact h.elim
    · rw [hw, hprog] at h
      exact h.elim

theorem Tracked.Ok.of_wait (h : a.Ok) (hprog : a.prog = .wait check :: prog) :
    check.holds true a.req = true ∧ Sound a.req true prog := by
  unfold Tracked.Ok at h
  cases hw : a.waitingFor with
  | none =>
    rw [hw, hprog] at h
    exact h.elim
  | some w =>
    rw [hw, hprog] at h
    exact h

/-- A request gave up control: it waits for one that does not wait, or those that conflict with it
wait. -/
def Parked (others : List Tracked) (a : Tracked) : Prop :=
  a.woken = false ∧ (a.waitingFor = none ∧ Free others a.req ∨
      ∃ r ∈ others, r.waitingFor = none ∧ a.waitingFor = some r.id)

def serialisingCount (L : List Tracked) : Nat := L.countP (·.req.serialising)

/-- What a coroutine leaves behind. -/
def Outcome.Good (others : List Tracked) (id : Nat) : Outcome → Prop
  | .yield self n =>
    self.id = id ∧ self.Ok ∧ Parked others self ∧ n = serialisingCount (self :: others)
  | .finish self n => self.id = id ∧ n = serialisingCount (self :: others)
  | .abort => False

/-- Without serialising requests there are no conflicts. -/
theorem free_of_serialisingCount (h : serialisingCount (self :: others) = 0) :
    Free others self.req := by
  intro r hr hconflict
  rw [serialisingCount, countP_eq_zero] at h
  have hself := h self mem_cons_self
  have hother := h r (mem_cons_of_mem _ hr)
  rw [conflicts, Bool.and_eq_true, Bool.or_eq_true] at hconflict
  exact absurd hconflict.1 (not_or_intro hother hself)

theorem exec_good {free : Bool} (hsound : Sound self.req free prog)
    (hfree : free = true → Free others self.req) (hwaiting : self.waitingFor = none)
    (hwoken : self.woken = false) (hn : n = serialisingCount (self :: others)) :
    (exec others prog self n).Good others self.id := by
  induction prog generalizing self n free with
  | nil => exact ⟨rfl, hn⟩
  | cons instr prog ih =>
    cases instr with
    | mark align =>
      refine @ih { self with req := self.req.markSerialising align }
        _ _ hsound ?_ hwaiting hwoken ?_
      · intro hkept
        rw [Bool.and_eq_true, decide_eq_true_iff] at hkept
        rw [hkept.2]
        exact hfree hkept.1
      rw [serialisingCount, countP_cons] at hn ⊢
      rw [hn]
      split
      · rfl
      · rfl
    | wait check =>
      rw [exec]
      split
      · -- it waits, so it was not free
        next r hr =>
          have hblocker : findBlocker self.req others = some r := by
            split at hr
            · cases hr
            · exact hr
          obtain ⟨b, hb, hbw, rfl⟩ := findBlocker_eq_some hblocker
          have hnot : free = false := by
            rw [← Bool.not_eq_true]
            intro hf
            rw [findBlocker_eq_none.2 (hfree hf)] at hblocker
            cases hblocker
          exact ⟨rfl, ⟨hsound.1 hnot, hsound.2⟩, ⟨hwoken, .inr ⟨b, hb, hbw, rfl⟩⟩, hn⟩
      · next hr =>
        have hfree' : Free others self.req := by
          split at hr
          · next hzero => exact free_of_serialisingCount (hn ▸ hzero)
          · exact findBlocker_eq_none.1 hr
        have hholds : check.holds false self.req = true := by
          cases check <;> rfl
        rw [if_pos hholds]
        exact ih hsound.2 (fun _ => hfree') hwaiting hwoken hn
    | io | debugEvent =>
      refine ⟨rfl, ?_, ⟨hwoken, .inl ⟨hwaiting, hfree hsound.1⟩⟩, hn⟩
      simp only [Tracked.Ok, hwaiting]
      exact hsound.2

theorem execWoken_good {check : WaitCheck} (hcheck : check.holds true self.req = true)
    (hsound : Sound self.req true prog) (hwaiting : self.waitingFor = none)
    (hwoken : self.woken = false) (hn : n = serialisingCount (self :: others)) :
    (execWoken others check prog self n).Good others self.id := by
  rw [execWoken]
  split
  · next r hr =>
    obtain ⟨b, hb, hbw, rfl⟩ := findBlocker_eq_some hr
    exact ⟨rfl, ⟨hcheck, hsound⟩, ⟨hwoken, .inr ⟨b, hb, hbw, rfl⟩⟩, hn⟩
  · next hr =>
    rw [if_pos hcheck]
    exact exec_good hsound (fun _ => findBlocker_eq_none.1 hr) hwaiting hwoken hn

/-! ## The invariant -/

/-- `waiting_for`, between addresses. -/
def WaitsFor (L : List Tracked) (x y : Nat) : Prop := ∃ a ∈ L, a.id = x ∧ a.waitingFor = some y

/-- Requests of a device; those in `gone` have left, and may still be waited for. -/
structure Rest (L : List Tracked) (gone : Nat → Prop) : Prop where
  nodup : (L.map Tracked.id).Nodup
  ok : ∀ a ∈ L, a.Ok
  woken : ∀ a ∈ L, a.woken = true → a.waitingFor ≠ none
  excl : ∀ a ∈ L, ∀ b ∈ L, a.id ≠ b.id → a.conflicts b.req = true →
    a.waitingFor ≠ none ∨ b.waitingFor ≠ none
  queued : ∀ a ∈ L, ∀ w, a.waitingFor = some w → a.woken = false → gone w ∨ ∃ b ∈ L, b.id = w
  ranked : Ranked (WaitsFor L)

/-- The requests of a device between two steps. -/
structure Consistent (L : List Tracked) (n : Nat) : Prop extends Rest L fun _ => False where
  count : n = serialisingCount L

/-- The order of the requests does not matter. -/
theorem Consistent.perm (h : Consistent L n) (hp : L.Perm L') : Consistent L' n where
  nodup := (hp.map Tracked.id).nodup_iff.1 h.nodup
  count := h.count.trans (hp.countP_eq _)
  ok a ha := h.ok a (hp.mem_iff.2 ha)
  woken a ha := h.woken a (hp.mem_iff.2 ha)
  excl a ha b hb := h.excl a (hp.mem_iff.2 ha) b (hp.mem_iff.2 hb)
  queued a ha w hw hwoken := by
    obtain ⟨b, hb, hid⟩ := (h.queued a (hp.mem_iff.2 ha) w hw hwoken).resolve_left not_false
    exact .inr ⟨b, hp.mem_iff.1 hb, hid⟩
  ranked := by
    apply h.ranked.mono
    rintro x y ⟨a, ha, hxy⟩
    exact ⟨a, hp.mem_iff.2 ha, hxy⟩

section

variable (h : Consistent (self :: others) n)
include h

theorem Consistent.fresh : ∀ a ∈ others, a.id ≠ self.id :=
  fun _ ha hid => (nodup_cons.1 h.nodup).1 (hid ▸ List.mem_map_of_mem ha)

theorem Consistent.rest : Rest others (· = self.id) where
  nodup := (nodup_cons.1 h.nodup).2
  ok a ha := h.ok a (mem_cons_of_mem _ ha)
  woken a ha := h.woken a (mem_cons_of_mem _ ha)
  excl a ha b hb := h.excl a (mem_cons_of_mem _ ha) b (mem_cons_of_mem _ hb)
  queued a ha w hw hwoken := by
    obtain ⟨b, hb, hid⟩ := (h.queued a (mem_cons_of_mem _ ha) w hw hwoken).resolve_left not_false
    rcases mem_cons.1 hb with rfl | hb
    · exact .inl hid.symm
    · exact .inr ⟨b, hb, hid⟩
  ranked := by
    apply h.ranked.mono
    rintro x y ⟨a, ha, hxy⟩
    exact ⟨a, mem_cons_of_mem _ ha, hxy⟩

/-- Conflicting requests wait, for one that gave up control in its I/O. -/
theorem Consistent.free (hwaiting : self.waitingFor = none) : Free others self.req := by
  intro r hr hconflict
  have hne : r.id ≠ self.id := h.fresh r hr
  exact (h.excl r (mem_cons_of_mem _ hr) self mem_cons_self hne hconflict).resolve_right
    fun hself => hself hwaiting

end

/-- A request that waits for one that does not wait makes no cycle. -/
theorem Rest.ranked_cons (h : Rest others (· = self.id)) (hfresh : ∀ a ∈ others, a.id ≠ self.id)
    (hparked : Parked others self) : Ranked (WaitsFor (self :: others)) := by
  rcases hparked.2 with ⟨hnone, -⟩ | ⟨r, hr, hrnone, hwaits⟩
  · apply h.ranked.mono
    rintro x y ⟨a, ha, hx, hy⟩
    rcases mem_cons.1 ha with rfl | ha
    · rw [hnone] at hy
      cases hy
    · exact ⟨a, ha, hx, hy⟩
  have hsink : ∀ z, ¬WaitsFor others r.id z := by
    rintro z ⟨a, ha, hx, hy⟩
    obtain rfl : a = r := inj_on_of_nodup_map h.nodup ha hr hx
    rw [hrnone] at hy
    cases hy
  apply (h.ranked.insert_sink hsink (hfresh r hr).symm).mono
  rintro x y ⟨a, ha, hx, hy⟩
  rcases mem_cons.1 ha with rfl | ha
  · rw [hwaits, some.injEq] at hy
    exact .inr ⟨hx.symm, hy.symm⟩
  · exact .inl ⟨a, ha, hx, hy⟩

/-- A request gives up control. -/
theorem Rest.yield (h : Rest others (· = self.id)) (hfresh : ∀ a ∈ others, a.id ≠ self.id)
    (hok : self.Ok) (hparked : Parked others self) :
    Consistent (self :: others) (serialisingCount (self :: others)) where
  nodup := by
    refine nodup_cons.2 ⟨?_, h.nodup⟩
    rintro hmem
    obtain ⟨a, ha, haid⟩ := mem_map.1 hmem
    exact hfresh a ha haid
  count := rfl
  ok := forall_mem_cons.2 ⟨hok, h.ok⟩
  woken := by
    refine forall_mem_cons.2 ⟨?_, h.woken⟩
    intro hwoken
    rw [hparked.1] at hwoken
    cases hwoken
  excl := by
    have hself : ∀ b ∈ others, b.conflicts self.req = true →
        self.waitingFor ≠ none ∨ b.waitingFor ≠ none := by
      intro b hb hconflict
      rcases hparked.2 with ⟨-, hfree⟩ | ⟨r, -, -, hwaits⟩
      · exact .inr (hfree b hb hconflict)
      · exact .inl (by rw [hwaits]; exact some_ne_none _)
    intro a ha b hb hne hconflict
    rcases mem_cons.1 ha with rfl | ha'
    · rcases mem_cons.1 hb with rfl | hb'
      · exact absurd rfl hne
      · exact hself b hb' (conflicts_comm a b ▸ hconflict)
    · rcases mem_cons.1 hb with rfl | hb'
      · exact (hself a ha' hconflict).symm
      · exact h.excl a ha' b hb' hne hconflict
  queued := by
    intro a ha w hw hwoken
    rcases mem_cons.1 ha with rfl | ha
    · rcases hparked.2 with ⟨hnone, -⟩ | ⟨r, hr, -, hwaits⟩
      · rw [hnone] at hw
        cases hw
      · rw [hwaits, some.injEq] at hw
        exact .inr ⟨r, mem_cons_of_mem _ hr, hw⟩
    · rcases h.queued a ha w hw hwoken with rfl | ⟨b, hb, hbid⟩
      · exact .inr ⟨self, mem_cons_self, rfl⟩
      · exact .inr ⟨b, mem_cons_of_mem _ hb, hbid⟩
  ranked := h.ranked_cons hfresh hparked

section

variable (id)

@[simp] theorem wake_id (a : Tracked) : (a.wake id).id = a.id := by
  unfold wake
  split <;> rfl

@[simp] theorem wake_req (a : Tracked) : (a.wake id).req = a.req := by
  unfold wake
  split <;> rfl

@[simp] theorem wake_waitingFor (a : Tracked) : (a.wake id).waitingFor = a.waitingFor := by
  unfold wake
  split <;> rfl

@[simp] theorem wake_prog (a : Tracked) : (a.wake id).prog = a.prog := by
  unfold wake
  split <;> rfl

/-- A request is woken by the end of the one it waits for. -/
theorem wake_woken (a : Tracked) :
    (a.wake id).woken = true ↔ a.waitingFor = some id ∨ a.woken = true := by
  unfold wake
  split
  · next h => exact iff_of_true rfl (.inl h)
  · next h => exact (or_iff_right h).symm

end

theorem Rest.finish (h : Rest others (· = id)) :
    Consistent (others.map (Tracked.wake id)) (serialisingCount others) where
  nodup := by
    rw [List.map_map]
    exact (map_congr_left fun a _ => wake_id id a) ▸ h.nodup
  count := by
    rw [serialisingCount, serialisingCount, countP_map]
    congr 1
    funext a
    rw [Function.comp_apply, wake_req]
  ok := by
    refine List.forall_mem_map.2 fun a ha => ?_
    have hok := h.ok a ha
    unfold Tracked.Ok at hok ⊢
    rwa [wake_waitingFor, wake_prog, wake_req]
  woken := by
    refine List.forall_mem_map.2 fun a ha hwoken => ?_
    rw [wake_waitingFor]
    rcases (wake_woken id a).1 hwoken with hwaits | hold
    · rw [hwaits]
      exact some_ne_none id
    · exact h.woken a ha hold
  excl := by
    refine List.forall_mem_map.2 fun a ha => List.forall_mem_map.2 fun b hb => ?_
    simp only [conflicts, wake_id, wake_req, wake_waitingFor]
    exact h.excl a ha b hb
  queued := by
    refine List.forall_mem_map.2 fun a ha w hw hwoken => ?_
    rw [wake_waitingFor] at hw
    have hnot : ¬(a.waitingFor = some id ∨ a.woken = true) := by
      rw [← wake_woken id a, hwoken]
      exact Bool.false_ne_true
    rw [not_or, Bool.not_eq_true] at hnot
    rcases h.queued a ha w hw hnot.2 with rfl | ⟨b, hb, hbid⟩
    · exact absurd hw hnot.1
    · exact .inr ⟨_, List.mem_map_of_mem hb, (wake_id id b).trans hbid⟩
  ranked := by
    apply h.ranked.mono
    rintro x y ⟨a, ha, hx, hy⟩
    obtain ⟨b, hb, rfl⟩ := mem_map.1 ha
    exact ⟨b, hb, (wake_id id b) ▸ hx, (wake_waitingFor id b) ▸ hy⟩

/-! ## Steps -/

theorem perm_others (hnodup : (L.map Tracked.id).Nodup) (hself : self ∈ L) :
    L.Perm (self :: L.filter (·.id ≠ self.id)) := by
  induction L with
  | nil => cases hself
  | cons a L ih =>
    rw [map_cons, nodup_cons] at hnodup
    rcases mem_cons.1 hself with rfl | hmem
    · have hall : ∀ b ∈ L, decide (b.id ≠ self.id) = true := by
        intro b hb
        refine decide_eq_true fun hid => hnodup.1 ?_
        exact hid ▸ List.mem_map_of_mem hb
      rw [filter_cons_of_neg (by simp), filter_eq_self.2 hall]
    have hne : a.id ≠ self.id := by
      intro hid
      exact hnodup.1 (hid ▸ List.mem_map_of_mem hmem)
    rw [filter_cons_of_pos (p := fun r : Tracked => decide (r.id ≠ self.id))
      (decide_eq_true hne)]
    exact ((ih hnodup.2 hmem).cons a).trans (Perm.swap _ _ _)

/-- A request in the place of another. -/
theorem map_replace (id : Nat) (self' : Tracked) (L : List Tracked) :
    (L.filter (·.id ≠ id)).map (fun r => if r.id = id then self' else r) =
    L.filter (·.id ≠ id) := by
  rw [map_congr_left (g := fun r => r), List.map_id']
  intro r hr
  exact if_neg (of_decide_eq_true (mem_filter.1 hr).2)

/-- The requests of a device are consistent, and no assertion has failed. -/
def TrackState.Sane (s : TrackState) : Prop := Consistent s.reqs s.inFlight ∧ s.aborted = false

theorem Outcome.Good.sane {o : Outcome} (hnodup : (s.reqs.map Tracked.id).Nodup)
    (hself : self ∈ s.reqs) (haborted : s.aborted = false)
    (hrest : Rest (s.others self.id) (· = self.id)) (hgood : o.Good (s.others self.id) self.id) :
    (s.after o).Sane := by
  cases o with
  | yield self' n =>
    obtain ⟨hid, hok, hparked, rfl⟩ := hgood
    refine ⟨?_, haborted⟩
    have hperm := (perm_others hnodup hself).map fun r => if r.id = self.id then self' else r
    rw [map_cons, if_pos rfl, map_replace] at hperm
    rw [← hid] at hrest hparked hperm ⊢
    exact (hrest.yield (fun a ha => of_decide_eq_true (mem_filter.1 ha).2) hok hparked).perm
      hperm.symm
  | finish self' n =>
    obtain ⟨hid, rfl⟩ := hgood
    refine ⟨?_, haborted⟩
    simp only [TrackState.after, TrackState.endRequest, hid]
    have hcount : (if self'.req.serialising then
        serialisingCount (self' :: s.others self.id) - 1
        else serialisingCount (self' :: s.others self.id)) =
          serialisingCount (s.others self.id) := by
      simp only [serialisingCount, countP_cons]
      split <;> rfl
    rw [hcount]
    exact hrest.finish
  | abort => exact hgood.elim

theorem find_eq_some (h : s.find id = some self) : self ∈ s.reqs ∧ self.id = id := by
  have hid := find?_some (p := fun r : Tracked => decide (r.id = id)) h
  exact ⟨mem_of_find?_eq_some h, of_decide_eq_true hid⟩

/-- The requests of a device, seen from one of them. -/
theorem Consistent.cons_others (h : Consistent s.reqs n) (hself : self ∈ s.reqs) :
    Consistent (self :: s.others self.id) n :=
  h.perm (perm_others h.nodup hself)

theorem others_cons (hid : self.id = id) (hfresh : ∀ a ∈ s.reqs, a.id ≠ id) (n : Nat) (b : Bool) :
    TrackState.others ⟨n, self :: s.reqs, b⟩ id = s.reqs := by
  rw [others, filter_cons_of_neg (by simp [hid]),
    filter_eq_self.2 fun a ha => decide_eq_true (hfresh a ha)]

/-- A request that was made gives up control with its assertions true. -/
theorem call_sane (h : s.Sane) (call : Call) (hfresh : ∀ a ∈ s.reqs, a.id ≠ id) :
    let self : Tracked := ⟨id, call.begin cfg, none, false, call.script cfg⟩
    let s₁ := { s with reqs := self :: s.reqs }
    (s₁.after (exec (s₁.others id) (call.script cfg) self s₁.inFlight)).Sane := by
  intro self s₁
  obtain ⟨hcons, haborted⟩ := h
  have hser : self.req.serialising = false := by
    cases call <;> rfl
  have hothers : s₁.others self.id = s.reqs := others_cons rfl hfresh _ _
  have hnodup : (s₁.reqs.map Tracked.id).Nodup := by
    refine nodup_cons.2 ⟨?_, hcons.nodup⟩
    intro hmem
    obtain ⟨a, ha, haid⟩ := mem_map.1 hmem
    exact hfresh a ha haid
  have hcount : s.inFlight = serialisingCount (self :: s.reqs) := by
    rw [hcons.count, serialisingCount, serialisingCount, countP_cons,
      if_neg (by rw [hser]; decide), add_zero]
  have hgood : (exec (s₁.others self.id) (call.script cfg) self s₁.inFlight).Good
      (s₁.others self.id) self.id := by
    rw [hothers]
    exact exec_good (sound_script cfg call) (fun hf => by cases hf) rfl rfl hcount
  refine hgood.sane hnodup mem_cons_self haborted (hothers ▸ ?_)
  exact { hcons.toRest with
    queued := fun a ha w hw hwoken =>
      .inr ((hcons.queued a ha w hw hwoken).resolve_left not_false) }

/-- A request goes on, with a coroutine that leaves a good outcome. -/
theorem Outcome.Good.sane_of_mem {o : Outcome} (h : s.Sane) (hself : self ∈ s.reqs)
    (hgood : o.Good (s.others self.id) self.id) : (s.after o).Sane :=
  hgood.sane h.1.nodup hself h.2 (h.1.cons_others hself).rest

/-- A request goes on behind its I/O. -/
theorem continue_sane (h : s.Sane) (hself : self ∈ s.reqs) (hwaiting : self.waitingFor = none)
    (hsound : Sound self.req true prog) :
    (s.after (exec (s.others self.id) prog self s.inFlight)).Sane := by
  have hcons := h.1.cons_others hself
  have hwoken : self.woken = false := by
    rw [← Bool.not_eq_true]
    intro hw
    exact h.1.woken self hself hw hwaiting
  have hgood := exec_good hsound (fun _ => hcons.free hwaiting) hwaiting hwoken hcons.count
  exact hgood.sane_of_mem h hself

theorem trackStep_sane {e : TrackEvent} (h : s.Sane) (hstep : trackStep cfg s e = some s') :
    s'.Sane := by
  revert hstep
  -- the branches of `trackStep` that lead to a state
  fun_cases trackStep cfg s e <;> rintro ⟨⟩
  · next call hfree _ _ =>
    apply call_sane h call
    intro a ha hid
    rw [find, find?_isSome] at hfree
    exact hfree ⟨a, ha, decide_eq_true hid⟩
  · next hfind _ hprog =>
    obtain ⟨hself, rfl⟩ := find_eq_some hfind
    obtain ⟨hwaiting, hsound⟩ := (h.1.ok _ hself).of_io (.inl hprog)
    exact continue_sane h hself hwaiting hsound
  · next self hfind _ _ _ =>
    obtain ⟨hself, rfl⟩ := find_eq_some hfind
    have hgood : (Outcome.finish self s.inFlight).Good (s.others self.id) self.id :=
      ⟨rfl, (h.1.cons_others hself).count⟩
    exact hgood.sane_of_mem h hself
  · next hfind _ hprog =>
    obtain ⟨hself, rfl⟩ := find_eq_some hfind
    obtain ⟨hwaiting, hsound⟩ := (h.1.ok _ hself).of_io (.inr hprog)
    exact continue_sane h hself hwaiting hsound
  · next self hfind _ _ hprog _ _ =>
    obtain ⟨hself, rfl⟩ := find_eq_some hfind
    obtain ⟨hcheck, hsound⟩ := (h.1.ok self hself).of_wait hprog
    refine Outcome.Good.sane_of_mem h hself ?_
    exact @execWoken_good { self with waitingFor := none, woken := false } _ _ _ _ hcheck
      hsound rfl rfl (h.1.cons_others hself).count

theorem sane_of_reachable (h : (trackMachine cfg).Reachable s) : s.Sane := by
  refine h.invariant ?_ fun _ _ _ _ h _ hstep => trackStep_sane h hstep
  rintro s rfl
  refine ⟨⟨⟨nodup_nil, ?_, ?_, ?_, ?_, ⟨fun _ => 0, ?_⟩⟩, rfl⟩, rfl⟩
  · rintro a ⟨⟩
  · rintro a ⟨⟩
  · rintro a ⟨⟩
  · rintro a ⟨⟩
  · rintro x y ⟨a, ⟨⟩, -⟩

/-- The request is past its wait: it does its I/O. -/
def Tracked.InIo (a : Tracked) : Prop :=
  a.prog.head? = some .io ∨ a.prog.head? = some .debugEvent

theorem Tracked.Ok.waitingFor_of_inIo (h : a.Ok) (hio : a.InIo) : a.waitingFor = none := by
  rcases hio with hio | hio
  · obtain ⟨prog, hprog⟩ := head?_eq_some_iff.1 hio
    exact (h.of_io (.inl hprog)).1
  · obtain ⟨prog, hprog⟩ := head?_eq_some_iff.1 hio
    exact (h.of_io (.inr hprog)).1

/-- In every reachable state a serialising request in its I/O overlaps no other request in its I/O;
requests wait without cycles, and each waits in the end for one that can run; and no assertion has
failed. -/
theorem serialising_requests_exclude (cfg : TrackConfig) (s : TrackState)
    (h : (trackMachine cfg).Reachable s) :
    (∀ a ∈ s.reqs, ∀ b ∈ s.reqs, a.id ≠ b.id → a.req.serialising = true → a.InIo → b.InIo →
      a.req.overlaps b.req.overlapOffset b.req.overlapBytes = false) ∧
    (∀ x, ¬Relation.TransGen (WaitsFor s.reqs) x x) ∧
    (∀ a ∈ s.reqs, ∃ b ∈ s.reqs, Relation.ReflTransGen (WaitsFor s.reqs) a.id b.id ∧
      (b.waitingFor = none ∨ b.woken = true)) ∧ s.aborted = false := by
  obtain ⟨hcons, haborted⟩ := sane_of_reachable h
  refine ⟨?_, hcons.ranked.irrefl_transGen, ?_, haborted⟩
  · intro a ha b hb hne hser haio hbio
    rw [← Bool.not_eq_true]
    intro hoverlaps
    have hconflict : a.conflicts b.req = true := by
      rw [conflicts, hser, hoverlaps]
      rfl
    rcases hcons.excl a ha b hb hne hconflict with hwaits | hwaits
    · exact hwaits ((hcons.ok a ha).waitingFor_of_inIo haio)
    · exact hwaits ((hcons.ok b hb).waitingFor_of_inIo hbio)
  · intro a ha
    let Tracks (x : Nat) : Prop := ∃ b ∈ s.reqs, b.id = x
    let Runs (x : Nat) : Prop := ∃ b ∈ s.reqs, b.id = x ∧ (b.waitingFor = none ∨ b.woken = true)
    have hstep : ∀ x, Tracks x → Runs x ∨ ∃ y, WaitsFor s.reqs x y ∧ Tracks y := by
      rintro x ⟨b, hb, rfl⟩
      cases hw : b.waitingFor with
      | none => exact .inl ⟨b, hb, rfl, .inl hw⟩
      | some w =>
        cases hwoken : b.woken with
        | true => exact .inl ⟨b, hb, rfl, .inr hwoken⟩
        | false =>
          exact .inr ⟨w, ⟨b, hb, rfl, hw⟩, (hcons.queued b hb w hw hwoken).resolve_left not_false⟩
    have hstart : Tracks a.id := ⟨a, ha, rfl⟩
    obtain ⟨x, hpath, -, b, hb, rfl, hruns⟩ := hcons.ranked.exists_end hstep hstart
    exact ⟨b, hb, hpath, hruns⟩

/-- A write inside a block, and a read and a write of zeroes that it holds up: the read waits for
the write, and when that is done for the zeroes. -/
def heldUp : List TrackEvent :=
  [.call 1 (.write 100 10), .call 2 (.read 0 512 false), .call 3 (.writeZeroes 500 600),
    .debugResume 1, .ioDone 1 true, .debugResume 1, .debugResume 1, .ioDone 1 true, .debugResume 1,
    .ioDone 1 true, .debugResume 1, .resume 3, .resume 2]

theorem serialising_requests_exclude_heldUp :
    ∃ s, (trackMachine ⟨512, 65536⟩).run ⟨0, [], false⟩ heldUp = some s ∧
      s.reqs.map (fun r => (r.id, r.waitingFor)) = [(3, none), (2, some 3)] ∧
      (∀ x, ¬Relation.TransGen (WaitsFor s.reqs) x x) ∧ s.aborted = false := by
  obtain ⟨s, hs, hreach, hreqs⟩ := Machine.Reachable.exists_of_run (M := trackMachine ⟨512, 65536⟩)
    (.init rfl) heldUp (P := fun s => s.reqs.map (fun r => (r.id, r.waitingFor)) =
      [(3, none), (2, some 3)])
    (by decide)
  obtain ⟨-, hacyclic, -, haborted⟩ := serialising_requests_exclude _ s hreach
  exact ⟨s, hs, hreqs, hacyclic, haborted⟩

end QemuAndroid.Block
