import QemuAndroid.GoldfishPipe.View

/-!
# What a command can do

`pipeDevice_doCommand` seen from the view: `CommandEffect` lists every outcome of
a command, with the guard under which it happens, and
`pipeDeviceDoCommand_spec` says that on a device that represents a well-formed
view the command returns with one of them.  Everything proved later about the
device goes through this list.

A service callback runs in the middle of a command and may itself wake or close
the pipe it was called for.  What such calls can do to the pipe is `View.Grows`:
flags are only added, a close is announced by `PIPE_WAKE_CLOSED` on the list of
signaled pipes, and no other pipe is touched.

The last section is about a pipe before it has a service: the name it connects
by may come in any number of commands.
-/

namespace QemuAndroid.GoldfishPipe

open Lib View Pipe PipeConnector List Option

variable {σ ι : Type}

def Wants (wanted flag : BitVec 8) : Prop := wanted &&& flag ≠ 0
deriving Decidable

variable {flag : BitVec 8} {a : Addr} {v : View σ} {dev : PipeDevice σ}

theorem wants_or {x y : BitVec 8} : Wants (x ||| y) flag ↔ Wants x flag ∨ Wants y flag := by
  unfold Wants
  rw [BitVec.and_or_distrib_right, ← not_and_or]
  exact not_congr BitVec.or_eq_zero_iff

theorem not_wants_zero : ¬ Wants 0 flag := by simp [Wants]

/-! ## Calls of a service on its own pipe -/

/-- What the calls of a service on the pipe at `a` can do. -/
structure View.Grows (a : Addr) (v v' : View σ) : Prop where
  pipes : v'.pipes = v.pipes
  node_other : ∀ b, b ≠ a → v'.node b = v.node b
  mem_signaled : ∀ b, b ∈ v'.signaled ↔ b ∈ v.signaled ∨ b = a ∧ a ∈ v'.signaled
  node : ∀ n, v.node a = some n → ∃ n', v'.node a = some n' ∧ n'.channel = n.channel ∧
    (∀ flag, Wants n.wanted flag → Wants n'.wanted flag) ∧ (n.closed → n'.closed) ∧
    (n'.closed → n.closed ∨ a ∈ v'.signaled ∧ Wants n'.wanted pipeWakeClosed)

variable {n p : Pipe σ}

namespace View.Grows

variable {a : Addr} {v v' v'' : View σ}

theorem refl (a : Addr) (v : View σ) : v.Grows a v where
  pipes := rfl
  node_other _ _ := rfl
  mem_signaled _ := ⟨.inl, fun h => h.elim id fun ⟨e, hm⟩ => e ▸ hm⟩
  node n hn := ⟨n, hn, rfl, fun _ h => h, id, .inl⟩

theorem trans (h : v.Grows a v') (h' : v'.Grows a v'') : v.Grows a v'' where
  pipes := h'.pipes.trans h.pipes
  node_other b hb := (h'.node_other b hb).trans (h.node_other b hb)
  mem_signaled b := by
    rw [h'.mem_signaled b, h.mem_signaled b]
    constructor
    · rintro ((hb | ⟨rfl, hm⟩) | hb)
      · exact .inl hb
      · exact .inr ⟨rfl, (h'.mem_signaled b).mpr (.inl hm)⟩
      · exact .inr hb
    · rintro (hb | hb)
      · exact .inl (.inl hb)
      · exact .inr hb
  node n hn := by
    obtain ⟨n', hn', hch, hw, hc, hc'⟩ := h.node n hn
    obtain ⟨n'', hn'', hch', hw', hcc, hcc'⟩ := h'.node n' hn'
    refine ⟨n'', hn'', hch'.trans hch, fun f hf => hw' f (hw f hf), fun c => hcc (hc c),
      fun c => ?_⟩
    rcases hcc' c with c | c
    · rcases hc' c with c | ⟨hm, hcl⟩
      · exact .inl c
      · exact .inr ⟨(h'.mem_signaled a).mpr (.inl hm), hw' _ hcl⟩
    · exact .inr c

theorem wake {n₀ : Pipe σ} (hn : v.node a = some n₀) (hch : n.channel = n₀.channel)
    (hw : n.wanted = n₀.wanted) (hc : n₀.closed → n.closed) (flags : BitVec 32)
    (hcl : n.closed → n₀.closed ∨ Wants (flags.setWidth 8) pipeWakeClosed) :
    v.Grows a (v.wake a n flags) where
  pipes := rfl
  node_other b hb := by simp [View.wake, hb]
  mem_signaled b := by
    have ha : a ∈ v.signal a := mem_signal.mpr (.inl rfl)
    simp only [View.wake, mem_signal, ha]
    tauto
  node m hm := by
    obtain rfl : n₀ = m := some.inj (hn.symm.trans hm)
    refine ⟨{ n with wanted := n.wanted ||| flags.setWidth 8 }, by simp [View.wake], hch,
      fun f hf => wants_or.mpr (.inl (hw ▸ hf)), hc, fun c => ?_⟩
    exact (hcl c).imp_right fun hf => ⟨mem_signal.mpr (.inl rfl), wants_or.mpr (.inr hf)⟩

theorem hostClose (hn : v.node a = some n) : v.Grows a (v.hostClose a n) := by
  unfold View.hostClose
  split
  · exact refl a v
  · exact wake (n := { n with closed := true }) hn rfl rfl (fun _ => rfl)
      (pipeWakeClosed.setWidth 32) fun _ => .inr (by decide)

/-- The pipe at `a` stays open. -/
theorem exists_node (h : v.Grows a v') (hn : v.node a = some n) : ∃ n', v'.node a = some n' := by
  obtain ⟨n', hn', -⟩ := h.node n hn
  exact ⟨n', hn'⟩

end View.Grows

/-- How the interrupt line follows the list of signaled pipes while a service
calls into the device: it is raised with the pipe on the list, or both stay. -/
def IrqFollows (a : Addr) (v : View σ) (irq : Bool) (v' : View σ) (irq' : Bool) : Prop :=
  irq' = true ∧ a ∈ v'.signaled ∨ irq' = irq ∧ v'.signaled = v.signaled

theorem IrqFollows.trans {v' v'' : View σ} {i i' i'' : Bool} (h : IrqFollows a v i v' i')
    (h' : IrqFollows a v' i' v'' i'') : IrqFollows a v i v'' i'' := by
  rcases h' with h' | ⟨hi, hs⟩
  · exact .inl h'
  · rw [IrqFollows, hi, hs]
    exact h

/-- The calls of a service on the pipe at `a` have been made, with `flag` in its `wanted`, and the
status has been set. -/
def Finished (a : Addr) (dev : PipeDevice σ) (v : View σ) (flag : BitVec 8) (status : BitVec 32)
    (r : Option (PipeDevice σ)) : Prop :=
  ∃ dev' v', r = some dev' ∧ Represents dev' v' ∧ v'.Wf ∧ v.Grows a v' ∧
    (∀ m, v'.node a = some m → flag ≠ 0 → Wants m.wanted flag) ∧
    IrqFollows a v dev.irq v' dev'.irq ∧
    dev' = { dev with heap := dev'.heap, signaledPipes := dev'.signaledPipes, irq := dev'.irq,
                      status := status }

theorem hostCall_spec (h : Represents dev v) (hv : v.Wf) (hn : v.node a = some n)
    (call : HostCall) : Finished a dev v 0 dev.status (call.apply a dev) := by
  cases call with
  | wake flags =>
    obtain ⟨dev', hd, hr, he⟩ := qemuPipeWake_spec h hv hn flags
    have hm : n.Matched := hv.matched a n hn
    refine ⟨dev', _, hd, hr, hv.wake hn rfl hm flags, .wake hn rfl rfl id flags .inl,
      fun _ _ h => absurd rfl h, .inl ?_, ?_⟩
    · exact ⟨by rw [he], mem_signal.mpr (.inl rfl)⟩
    · rw [he]
  | close =>
    obtain ⟨dev', hd, hr, he⟩ := qemuPipeClose_spec h hv hn
    refine ⟨dev', _, hd, hr, hv.hostClose hn, .hostClose hn, fun _ _ h => absurd rfl h, ?_, ?_⟩
    · by_cases hc : n.closed = true
      · refine .inr ⟨by rw [he]; exact if_pos hc, by rw [hostClose, if_pos hc]⟩
      · refine .inl ⟨by rw [he]; exact if_neg hc, ?_⟩
        rw [hostClose, if_neg hc]
        exact mem_signal.mpr (.inl rfl)
    · rw [he]

/-- The calls that a callback makes on an open pipe. -/
theorem applyCalls_spec (calls : List HostCall) (h : Represents dev v) (hv : v.Wf)
    (hn : v.node a = some n) : Finished a dev v 0 dev.status (applyCalls a calls dev) := by
  induction calls generalizing dev v n with
  | nil => exact ⟨dev, v, rfl, h, hv, .refl a v, fun _ _ h => absurd rfl h, .inr ⟨rfl, rfl⟩, rfl⟩
  | cons call calls ih =>
    obtain ⟨dev₁, v₁, hd₁, hr₁, hw₁, hg₁, -, hi₁, he₁⟩ := hostCall_spec h hv hn call
    obtain ⟨n₁, hn₁⟩ := hg₁.exists_node hn
    obtain ⟨dev₂, v₂, hd₂, hr₂, hw₂, hg₂, hf₂, hi₂, he₂⟩ := ih hr₁ hw₁ hn₁
    refine ⟨dev₂, v₂, ?_, hr₂, hw₂, hg₁.trans hg₂, hf₂, hi₁.trans hi₂, ?_⟩
    · rw [applyCalls, foldlM_cons, hd₁]
      exact hd₂
    · rw [he₂, he₁]

/-! ## Callbacks -/

/-- What a callback may change of its pipe: the endpoint, with the callbacks that
fit it. -/
structure Pipe.EndpointOnly (n n' : Pipe σ) : Prop where
  next : n'.next = n.next
  nextWaked : n'.nextWaked = n.nextWaked
  channel : n'.channel = n.channel
  wanted : n'.wanted = n.wanted
  closed : n'.closed = n.closed
  matched : n'.Matched

theorem Pipe.EndpointOnly.rfl (h : n.Matched) : n.EndpointOnly n :=
  ⟨Eq.refl _, Eq.refl _, Eq.refl _, Eq.refl _, Eq.refl _, h⟩

theorem pipeConnectorSendBuffers_endpoint (S : Services σ ι) (ext : ι) (pcon : PipeConnector)
    (n : Pipe σ) (hf : n.funcs = .connector) (buffers : List (List UInt8)) :
    n.EndpointOnly (pipeConnectorSendBuffers S ext pcon n buffers).1 := by
  have hcon : ∀ c, ({ n with opaqueData := .connector c } : Pipe σ).Matched := by
    simp [Pipe.Matched, hf]
  unfold pipeConnectorSendBuffers
  dsimp only
  split
  · split
    · split
      · exact ⟨rfl, rfl, rfl, rfl, rfl, hcon _⟩
      · split
        · exact ⟨rfl, rfl, rfl, rfl, rfl, hcon _⟩
        · exact ⟨rfl, rfl, rfl, rfl, rfl, trivial⟩
    · exact ⟨rfl, rfl, rfl, rfl, rfl, hcon _⟩
  · exact ⟨rfl, rfl, rfl, rfl, rfl, hcon _⟩

/-- The callbacks and the endpoint of a pipe are both the connector's, or both a
service's. -/
theorem Pipe.Matched.cases (h : n.Matched) :
    (∃ pcon, n.funcs = .connector ∧ n.opaqueData = .connector pcon) ∨
    ∃ svc p, n.funcs = .service svc ∧ n.opaqueData = .peer p := by
  unfold Pipe.Matched at h
  split at h
  · next hf ho => exact .inl ⟨_, hf, ho⟩
  · next hf ho => exact .inr ⟨_, _, hf, ho⟩
  · exact h.elim

theorem Pipe.endpointOnly_peer {svc : Nat} (hf : n.funcs = .service svc) (p : σ) :
    n.EndpointOnly { n with opaqueData := .peer p } :=
  ⟨rfl, rfl, rfl, rfl, rfl, by simp [Pipe.Matched, hf]⟩

section

variable (S : Services σ ι) (ext : ι) (h : n.Matched)

include h

theorem Pipe.sendBuffers_spec (buffers : List (List UInt8)) :
    ∃ n' status calls, n.sendBuffers S ext buffers = some (n', status, calls) ∧
      n.EndpointOnly n' := by
  rcases h.cases with ⟨pcon, hf, ho⟩ | ⟨svc, p, hf, ho⟩
  · exact ⟨_, _, _, by simp only [sendBuffers, hf, ho]; rfl,
      pipeConnectorSendBuffers_endpoint S ext pcon n hf buffers⟩
  · exact ⟨_, _, _, by simp only [sendBuffers, hf, ho]; rfl, endpointOnly_peer hf _⟩

theorem Pipe.recvBuffers_spec (sizes : List Nat) :
    ∃ n' status calls data, n.recvBuffers S ext sizes = some (n', status, calls, data) ∧
      n.EndpointOnly n' := by
  rcases h.cases with ⟨pcon, hf, ho⟩ | ⟨svc, p, hf, ho⟩
  · exact ⟨_, _, _, _, by simp only [recvBuffers, hf, ho]; rfl, .rfl h⟩
  · exact ⟨_, _, _, _, by simp only [recvBuffers, hf, ho]; rfl, endpointOnly_peer hf _⟩

theorem Pipe.poll_spec :
    ∃ n' status calls, n.poll S ext = some (n', status, calls) ∧ n.EndpointOnly n' := by
  rcases h.cases with ⟨pcon, hf, ho⟩ | ⟨svc, p, hf, ho⟩
  · exact ⟨_, _, _, by simp only [poll, hf, ho]; rfl, .rfl h⟩
  · exact ⟨_, _, _, by simp only [poll, hf, ho]; rfl, endpointOnly_peer hf _⟩

theorem Pipe.wakeOn_spec (flags : BitVec 8) :
    ∃ n' calls, n.wakeOn S ext flags = some (n', calls) ∧ n.EndpointOnly n' := by
  rcases h.cases with ⟨pcon, hf, ho⟩ | ⟨svc, p, hf, ho⟩
  · exact ⟨_, _, by simp only [wakeOn, hf, ho]; rfl, .rfl h⟩
  · exact ⟨_, _, by simp only [wakeOn, hf, ho]; rfl, endpointOnly_peer hf _⟩

end

/-! ## Commands -/

/-- The flag that a command adds to `wanted`. -/
def Cmd.wakeFlag : Cmd → BitVec 8
  | .cmdWakeOnRead => pipeWakeRead
  | .cmdWakeOnWrite => pipeWakeWrite
  | _ => 0

/-- Everything a command on the channel `ch` can do: the view, the interrupt
line and the status afterwards. -/
inductive CommandEffect (v : View σ) (ch : BitVec 64) (fresh : Addr) (irq : Bool)
    (status : BitVec 32) (cmd : Option Cmd) : View σ → Bool → BitVec 32 → Prop
  | noPipe (hnone : ∀ b m, v.node b = some m → m.channel ≠ ch) (hc : cmd ≠ some .cmdOpen) :
      CommandEffect v ch fresh irq status cmd v irq pipeErrorInval
  | opened (hnone : ∀ b m, v.node b = some m → m.channel ≠ ch) (hc : cmd = some .cmdOpen) :
      CommandEffect v ch fresh irq status cmd (v.openPipe fresh ch) irq 0
  | rejected {a : Addr} {n : Pipe σ} (hn : v.node a = some n) (hch : n.channel = ch)
      (hcl : n.closed = true) (hc : cmd ≠ some .cmdClose) :
      CommandEffect v ch fresh irq status cmd v irq pipeErrorIo
  | inUse {a : Addr} {n : Pipe σ} (hn : v.node a = some n) (hch : n.channel = ch)
      (hcl : n.closed = false) (hc : cmd = some .cmdOpen) :
      CommandEffect v ch fresh irq status cmd v irq pipeErrorInval
  | closed {a : Addr} {n : Pipe σ} (hn : v.node a = some n) (hch : n.channel = ch)
      (hc : cmd = some .cmdClose) :
      CommandEffect v ch fresh irq status cmd (v.remove a) irq status
  | called {a : Addr} {n : Pipe σ} {c : Cmd} {v' : View σ} {irq' : Bool} {status' : BitVec 32}
      (hn : v.node a = some n) (hch : n.channel = ch) (hcl : n.closed = false)
      (hc : cmd = some c) (hopen : c ≠ .cmdOpen) (hclose : c ≠ .cmdClose) (hg : v.Grows a v')
      (hw : ∀ n', v'.node a = some n' → c.wakeFlag ≠ 0 → Wants n'.wanted c.wakeFlag)
      (hi : IrqFollows a v irq v' irq') :
      CommandEffect v ch fresh irq status cmd v' irq' status'
  | unknown {a : Addr} {n : Pipe σ} (hn : v.node a = some n) (hch : n.channel = ch)
      (hcl : n.closed = false) (hc : cmd = none) :
      CommandEffect v ch fresh irq status cmd v irq status

/-- A callback has run: its endpoint is stored, its calls are made. -/
theorem finishCall_spec (h : Represents dev v) (hv : v.Wf) {n' : Pipe σ}
    (hn : dev.heap.lookup a = some n)
    (he : ({ n with wanted := n.wanted ||| flag } : Pipe σ).EndpointOnly n') (calls : List HostCall)
    (status : BitVec 32) : Finished a dev v flag status (finishCall a n' calls status dev) := by
  have hnv : v.node a = some n.unlinked := h.node_of_lookup hn
  have hset : (v.setNode a n'.unlinked).node a = some n'.unlinked := by simp [setNode]
  obtain ⟨dev', v', hd, hr, hw, hg, -, hi, hdev⟩ :=
    applyCalls_spec calls (h.setNode hn n' he.next he.nextWaked)
      (hv.setNode hnv _ he.channel (matched_unlinked.mpr he.matched)) hset
  have hg₀ : v.Grows a (v.setNode a n'.unlinked) :=
    { pipes := rfl
      node_other := fun b hb => by simp [setNode, hb]
      mem_signaled := fun b => ⟨.inl, fun hb => hb.elim id fun h => h.1 ▸ h.2⟩
      node := fun m hm => by
        obtain rfl : n.unlinked = m := some.inj (hnv.symm.trans hm)
        refine ⟨n'.unlinked, hset, he.channel, fun f hf => ?_, ?_, ?_⟩
        · rw [unlinked_wanted, he.wanted]
          exact wants_or.mpr (.inl hf)
        · exact fun hc => he.closed.trans hc
        · exact fun hc => .inl (he.closed.symm.trans hc) }
  refine ⟨{ dev' with status := status }, v', by rw [finishCall, hd]; rfl, hr.congr, hw,
    hg₀.trans hg, fun m hm hf => ?_, hi, by rw [hdev]⟩
  obtain ⟨m', hm', -, hwants, -⟩ := hg.node _ hset
  obtain rfl : m' = m := some.inj (hm'.symm.trans hm)
  refine hwants flag ?_
  rw [unlinked_wanted, he.wanted]
  exact wants_or.mpr (.inr (by rwa [Wants, BitVec.and_self]))

/-- `PIPE_CMD_WAKE_ON_READ` and `PIPE_CMD_WAKE_ON_WRITE` on an open pipe: the flag
is in `wanted` afterwards, whether or not it was there before. -/
theorem doWakeOn_spec (S : Services σ ι) (b : BusIn ι) (h : Represents dev v) (hv : v.Wf)
    (hn : dev.heap.lookup a = some n) (flag : BitVec 8) :
    Finished a dev v flag 0 (doWakeOn S b flag a n dev) := by
  have hnv : v.node a = some n.unlinked := h.node_of_lookup hn
  have hm : n.unlinked.Matched := hv.matched a _ hnv
  unfold doWakeOn
  dsimp only
  split
  · obtain ⟨n', calls, hcall, he⟩ := wakeOn_spec S b.ext
      (n := { n with wanted := n.wanted ||| flag }) hm (n.wanted ||| flag)
    rw [hcall]
    exact finishCall_spec h hv hn he calls 0
  · next hwant =>
    refine ⟨_, v, rfl, h.congr, hv, .refl a v, fun m hm _ => ?_, .inr ⟨rfl, rfl⟩, rfl⟩
    obtain rfl : n.unlinked = m := some.inj (hnv.symm.trans hm)
    exact hwant

/-- A command has been carried out. -/
def Executed (dev : PipeDevice σ) (v : View σ) (fresh : Addr) (cmd : Option Cmd)
    (r : Option (PipeDevice σ × List GuestWrite)) : Prop :=
  ∃ dev' ws v', r = some (dev', ws) ∧ Represents dev' v' ∧ v'.Wf ∧
    CommandEffect v dev.channel fresh dev.irq dev.status cmd v' dev'.irq dev'.status ∧
    dev' = { dev with heap := dev'.heap, pipes := dev'.pipes, irq := dev'.irq,
                      signaledPipes := dev'.signaledPipes, status := dev'.status }

/-- `pipeDevice_doCommand` returns, with one of the listed effects. -/
theorem pipeDeviceDoCommand_spec (S : Services σ ι) {b : BusIn ι} (command : BitVec 32)
    (h : Represents dev v) (hv : v.Wf) (hb : b.fresh ∉ dev.heap) :
    Executed dev v b.fresh (Cmd.ofBits command) (pipeDeviceDoCommand S b command dev) := by
  rcases pipeListFindpChannel_spec h hv dev.channel with
    ⟨s, hfind, hnone⟩ | ⟨pre, suf, a, n, hsplit, hn, hch, hfind⟩
  · by_cases hc : Cmd.ofBits command = some .cmdOpen
    · have hfresh : b.fresh ∉ v.pipes := fun hmem => hb ((h.mem_heap hv).mpr hmem)
      exact ⟨doOpen b dev, [], _, by simp [pipeDeviceDoCommand, hfind, hc], doOpen_spec h hv hb,
        hv.openPipe hfresh hnone, .opened hnone hc, rfl⟩
    · exact ⟨{ dev with status := pipeErrorInval }, [], v, by simp [pipeDeviceDoCommand, hfind, hc],
        h.congr, hv, .noPipe hnone hc, rfl⟩
  have hnv : v.node a = some n.unlinked := h.node_of_lookup hn
  have hmat : n.Matched := matched_unlinked.mp (hv.matched a _ hnv)
  have hfinish : ∀ {n' : Pipe σ} (calls status), n.EndpointOnly n' →
      Finished a dev v 0 status (finishCall a n' calls status dev) := by
    intro n' calls status he
    refine finishCall_spec h hv hn ?_ calls status
    rwa [show ({ n with wanted := n.wanted ||| 0 } : Pipe σ) = n by simp]
  rw [pipeDeviceDoCommand, hfind]
  simp only [bind_some, hn]
  split
  · next hrej =>
    exact ⟨_, _, v, rfl, h.congr, hv, .rejected hnv hch hrej.1 hrej.2, rfl⟩
  · next hacc =>
    have hcl : Cmd.ofBits command ≠ some .cmdClose → n.closed = false := by
      intro hne
      by_contra hc
      exact hacc ⟨by simpa using hc, hne⟩
    -- a callback of the pipe has run
    have hcalled : ∀ {c status r} (ws : List GuestWrite), Cmd.ofBits command = some c →
        c ≠ .cmdOpen → c ≠ .cmdClose → Finished a dev v c.wakeFlag status r →
        Executed dev v b.fresh (Cmd.ofBits command) (r.map (·, ws)) := by
      rintro c status r ws hc hopen hclose ⟨dev', v', rfl, hr, hw, hg, hwant, hi, hdev⟩
      exact ⟨dev', ws, v', rfl, hr, hw,
        .called hnv hch (hcl (by simp [hc, hclose])) hc hopen hclose hg hwant hi, by rw [hdev]⟩
    split
    · next hc =>
      exact ⟨_, _, v, rfl, h.congr, hv, .inUse hnv hch (hcl (by simp [hc])) hc, rfl⟩
    · next hc =>
      obtain ⟨dev', hd, hr, he⟩ := doClose_spec h hv hsplit hn
      refine ⟨dev', [], _, by rw [hd]; rfl, hr, hv.remove a, ?_, by rw [he]⟩
      rw [he]
      exact .closed hnv hch hc
    · next hc =>
      obtain ⟨n', status, calls, hcall, he⟩ := poll_spec S b.ext hmat
      rw [hcall]
      exact hcalled [] hc nofun nofun (hfinish calls status he)
    · next hc =>
      obtain ⟨n', status, calls, data, hcall, he⟩ :=
        recvBuffers_spec S b.ext hmat [dev.size.toNat]
      rw [hcall]
      exact hcalled _ hc nofun nofun (hfinish calls status he)
    · next hc =>
      obtain ⟨n', status, calls, hcall, he⟩ :=
        sendBuffers_spec S b.ext hmat [b.ram dev.address dev.size.toNat]
      rw [hcall]
      exact hcalled [] hc nofun nofun (hfinish calls status he)
    · next hc => exact hcalled [] hc nofun nofun (doWakeOn_spec S b h hv hn pipeWakeRead)
    · next hc => exact hcalled [] hc nofun nofun (doWakeOn_spec S b h hv hn pipeWakeWrite)
    · next hc =>
      exact ⟨_, _, v, rfl, h, hv, .unknown hnv hch (hcl (by simp [hc])) hc, rfl⟩

/-! ## Connecting -/

/-- `PIPE_CMD_WRITE_BUFFER` commands on one pipe, each with what its callback finds outside the
emulator and with the bytes: the pipe that is left, the statuses, and the calls of the service. -/
def Pipe.writeAll (S : Services σ ι) :
    Pipe σ → List (ι × List UInt8) → Option (Pipe σ × List (BitVec 32) × List HostCall)
  | pipe, [] => some (pipe, [], [])
  | pipe, (ext, data) :: cmds =>
    (pipe.sendBuffers S ext [data]).bind fun (pipe, status, calls) =>
      (writeAll S pipe cmds).map fun (pipe, statuses, calls') =>
        (pipe, status :: statuses, calls ++ calls')

theorem PipeConnector.fill_singleton {buffer data : List UInt8}
    (h : (buffer ++ data).length ≤ 128) : PipeConnector.fill buffer [data] = buffer ++ data := by
  rw [length_append] at h
  rw [fill, fill, take_of_length_le (by omega)]

/-- The connector goes by what its buffer holds in the end. -/
theorem pipeConnectorSendBuffers_congr (S : Services σ ι) (ext : ι) {buffer data : List UInt8}
    (h : (buffer ++ data).length ≤ 128) {status : BitVec 32} {calls : List HostCall}
    (hall : pipeConnectorSendBuffers S ext ⟨[]⟩ n [buffer ++ data] = (p, status, calls)) :
    ∃ status', pipeConnectorSendBuffers S ext ⟨buffer⟩ { n with opaqueData := .connector ⟨buffer⟩ }
      [data] = (p, status', calls) := by
  have hnil : fill [] [buffer ++ data] = buffer ++ data := fill_singleton h
  simp only [pipeConnectorSendBuffers, fill_singleton h, hnil] at hall ⊢
  split_ifs at hall ⊢
  · cases hfind : qemuPipeFindType S (splitPipeName (cString ((buffer ++ data).drop 5))).1 with
    | none =>
      rw [hfind] at hall
      cases hall
      exact ⟨_, rfl⟩
    | some svc =>
      rw [hfind] at hall
      dsimp only at hall ⊢
      split at hall
      · cases hall
        exact ⟨_, rfl⟩
      · cases hall
        exact ⟨_, rfl⟩
  · cases hall
    exact ⟨_, rfl⟩
  · cases hall
    exact ⟨_, rfl⟩

/-- **The commands before the last one only fill the buffer.**  However a name is split, the last
command connects the pipe as one command with the whole name does, or fails like it. -/
theorem Pipe.writeAll_split (S : Services σ ι) (ext : ι) (hf : n.funcs = .connector)
    {cmds : List (ι × List UInt8)} {buffer last : List UInt8}
    (h0 : 0 ∉ buffer ++ (cmds.map Prod.snd).flatten)
    (hlen : (buffer ++ (cmds.map Prod.snd).flatten ++ last).length ≤ 128)
    {status : BitVec 32} {calls : List HostCall}
    (hall : pipeConnectorSendBuffers S ext ⟨[]⟩ n [buffer ++ (cmds.map Prod.snd).flatten ++ last] =
      (p, status, calls)) :
    ∃ status', writeAll S { n with opaqueData := .connector ⟨buffer⟩ } (cmds ++ [(ext, last)]) =
      some (p, cmds.map (fun c => BitVec.ofNat 32 c.2.length) ++ [status'], calls) := by
  have hsend : ∀ ext buffer data, ({ n with opaqueData := .connector ⟨buffer⟩ } :
      Pipe σ).sendBuffers S ext [data] = some (pipeConnectorSendBuffers S ext ⟨buffer⟩
        { n with opaqueData := .connector ⟨buffer⟩ } [data]) := by
    intro ext buffer data
    simp only [sendBuffers, hf]
  induction cmds generalizing buffer with
  | nil =>
    rw [map_nil, flatten_nil, append_nil] at hlen hall
    obtain ⟨status', hlast⟩ := pipeConnectorSendBuffers_congr S ext hlen hall
    simp [writeAll, hsend, hlast]
  | cons c cmds ih =>
    rw [map_cons, flatten_cons, ← append_assoc] at h0 hlen hall
    obtain ⟨status', hrest⟩ := ih h0 hlen hall
    have hnot : 0 ∉ buffer ++ c.2 := fun h => h0 (mem_append_left _ h)
    have hfill : fill buffer [c.2] = buffer ++ c.2 := by
      rw [append_assoc, length_append] at hlen
      exact fill_singleton (Nat.le_of_add_right_le hlen)
    have hstep : pipeConnectorSendBuffers S c.1 ⟨buffer⟩
        { n with opaqueData := .connector ⟨buffer⟩ } [c.2] =
          ({ n with opaqueData := .connector ⟨buffer ++ c.2⟩ }, BitVec.ofNat 32 c.2.length,
          []) := by
      simp [pipeConnectorSendBuffers, hfill, hnot]
    refine ⟨status', ?_⟩
    rw [cons_append, writeAll, hsend, bind_some, hstep]
    dsimp only
    rw [hrest]
    rfl

/-- For every set of services and every name of at most 128 bytes with its zero byte: however the
guest splits it into commands, the pipe, the services and the calls are as for one command, which
also fixes the arguments of `init`; the commands before the last one return the number of their
bytes. -/
theorem connect_independent_of_split (S : Services σ ι) (ext : ι) (channel : BitVec 64)
    {name last : List UInt8} {cmds : List (ι × List UInt8)} (h0 : 0 ∉ name)
    (hlen : name.length < 128) (hlast : last ≠ [])
    (hsplit : (cmds.map Prod.snd).flatten ++ last = name ++ [0]) : ∃ p status status' calls,
      (pipeNew channel).sendBuffers S ext [name ++ [0]] = some (p, status, calls) ∧
      (pipeNew channel).writeAll S (cmds ++ [(ext, last)]) =
        some (p, cmds.map (fun c => BitVec.ofNat 32 c.2.length) ++ [status'], calls) := by
  have hnot : 0 ∉ (cmds.map Prod.snd).flatten := by
    obtain ⟨init, x, rfl⟩ := eq_nil_or_concat last |>.resolve_left hlast
    rw [concat_eq_append, ← append_assoc] at hsplit
    obtain ⟨hinit, -⟩ := append_inj' hsplit rfl
    exact fun h => h0 (hinit ▸ mem_append_left _ h)
  have hall := congrArg (pipeConnectorSendBuffers S ext ⟨[]⟩ (pipeNew channel) [·]) hsplit
  obtain ⟨status', hall⟩ := writeAll_split S ext rfl (show 0 ∉ [] ++ _ from hnot)
    (by rw [nil_append, hsplit, length_append]; exact hlen) hall
  exact ⟨_, _, status', _, rfl, hall⟩

/-- One service, which keeps what it is given as its state. -/
def argsServices : Services (Option (List UInt8)) Unit where
  names := [[120]]
  funcs _ :=
    { init := fun _ args => (some args, [])
      sendBuffers := fun _ p _ => ⟨0, p, []⟩
      recvBuffers := fun _ p _ => (⟨0, p, []⟩, [])
      poll := fun _ p => ⟨0, p, []⟩
      wakeOn := fun _ p _ => (p, []) }

/-- `pipe:x:7` in three commands. -/
theorem connect_independent_of_split_three : ∃ p status status' calls,
      (pipeNew 1).sendBuffers argsServices () [[112, 105, 112, 101, 58, 120, 58, 55] ++ [0]] =
        some (p, status, calls) ∧ (pipeNew 1).writeAll argsServices
          ([((), [112, 105, 112]), ((), [101, 58, 120, 58])] ++ [((), [55, 0])]) =
        some (p, [3, 4] ++ [status'], calls) :=
  connect_independent_of_split argsServices () 1 (by decide) (by decide) nofun rfl

end QemuAndroid.GoldfishPipe
