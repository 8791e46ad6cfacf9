import R3000.Proofs.Machine.Running

/-!
# Guest time

Cycles that have passed are first counted as pending and told to the devices later, in batches.  Every
part of a run keeps an account (`Machine.Account`): what the devices were told and what is still pending
is what was pending before and what has passed since.  At the end of a run nothing is pending, so the
devices have been told exactly the cycles by which the machine's own count has grown.
-/

namespace R3000

def totalCycles : List Word → Nat
  | [] => 0
  | cycles :: later => cycles.toNat + totalCycles later

theorem totalCycles_append (a b : List Word) :
    totalCycles (a ++ b) = totalCycles a + totalCycles b := by
  induction a with
  | nil => exact (Nat.zero_add _).symm
  | cons cycles later ih =>
    show cycles.toNat + totalCycles (later ++ b) = cycles.toNat + totalCycles later + totalCycles b
    rw [ih, Nat.add_assoc]

theorem totalCycles_tickChunks (cycles : Nat) : totalCycles (tickChunks cycles) = cycles := by
  induction cycles using Nat.strongRecOn with
  | ind cycles ih =>
    unfold tickChunks
    split
    next hzero => exact hzero.symm
    next hpos =>
      have hchunk : (UInt32.ofNat (min cycles 0xFFFFFFFF)).toNat = min cycles 0xFFFFFFFF := by
        rw [UInt32.toNat_ofNat']
        omega
      have hrest := ih (cycles - min cycles 0xFFFFFFFF) (by omega)
      show (UInt32.ofNat (min cycles 0xFFFFFFFF)).toNat +
        totalCycles (tickChunks (cycles - min cycles 0xFFFFFFFF)) = cycles
      rw [hchunk, hrest]
      omega

namespace Peripherals

/-- The devices come from one state to the other by accesses to their registers and by being told these
counts, in this order. -/
inductive Told (p : Peripherals) : List Word → Peripherals → Prop
  | refl : Told p [] p
  | read {counts : List Word} {q : Peripherals} (h : Told p counts q) (phys : Word) (width : Width) :
      Told p counts (q.read phys width).2
  | write {counts : List Word} {q : Peripherals} (h : Told p counts q) (phys : Word) (width : Width)
      (value : Word) : Told p counts (q.write phys width value)
  | tick {counts : List Word} {q : Peripherals} (h : Told p counts q) (cycles : Word) :
      Told p (counts ++ [cycles]) (q.tick cycles)

namespace Told

variable {p q r : Peripherals} {counts later : List Word}

theorem trans (h : p.Told counts q) (h' : q.Told later r) : p.Told (counts ++ later) r := by
  induction h' with
  | refl => rwa [List.append_nil]
  | read _ phys width ih => exact ih.read phys width
  | write _ phys width value ih => exact ih.write phys width value
  | tick _ cycles ih =>
    rw [← List.append_assoc]
    exact ih.tick cycles

theorem foldl_tick (p : Peripherals) (counts : List Word) :
    p.Told counts (counts.foldl Peripherals.tick p) := by
  induction counts generalizing p with
  | nil => exact .refl
  | cons cycles later ih => exact (Told.refl.tick cycles).trans (ih (p.tick cycles))

/-- Accesses do not touch the countdown to the vertical blank, so it shows what the devices were told, up
to whole periods. -/
theorem countdown (h : p.Told counts q) :
    (q.vblankCountdown.toNat + totalCycles counts) % 564480 = p.vblankCountdown.toNat % 564480 := by
  induction h with
  | refl => rfl
  | read _ phys width ih => rwa [vblankCountdown_read]
  | write _ phys width value ih => rwa [vblankCountdown_write]
  | @tick counts q _ cycles ih =>
    have hone : totalCycles [cycles] = cycles.toNat := rfl
    rw [vblankCountdown_tick, toNat_countdownAfter, totalCycles_append, hone]
    split <;> omega

end Told

end Peripherals

namespace AddressSpace

theorem devices_setTag (m : AddressSpace) (addr : Word) (bits : UInt8) :
    (m.setTag addr bits).devices = m.devices :=
  congrArg Contents.devices (contents_setTag m addr bits)

theorem devices_writeRam (m : AddressSpace) (offset : Word) (width : Width) (value : Word) :
    (m.writeRam offset width value).devices = m.devices := by
  rw [writeRam_eq]

theorem devices_writeScratch (m : AddressSpace) (offset : Word) (width : Width) (value : Word) :
    (m.writeScratch offset width value).devices = m.devices := by
  rw [writeScratch_eq]

theorem accessed_told : Accessed fun m m' => m.devices.Told [] m'.devices where
  refl _ := .refl
  trans h h' := h.trans h'
  setTag m addr bits := m.devices_setTag addr bits ▸ .refl
  writeRam m offset width value := m.devices_writeRam offset width value ▸ .refl
  writeScratch m offset width value := m.devices_writeScratch offset width value ▸ .refl
  readDevice _ phys width := .read .refl phys width
  writeDevice _ phys width value := .write .refl phys width value

end AddressSpace

namespace Machine

/-! ## Accounts -/

/-- From one machine to the other the devices are told these counts, and so many cycles pass. -/
structure Account (m m' : Machine) (counts : List Word) (passed : Nat) : Prop where
  devices : m.mem.devices.Told counts m'.mem.devices
  balance : totalCycles counts + m'.pendingTicks = m.pendingTicks + passed
  cycles : m'.cycles = m.cycles

variable {m m' m'' : Machine}

namespace Account

variable {counts later : List Word} {passed more : Nat}

theorem trans (h : m.Account m' counts passed) (h' : m'.Account m'' later more) :
    m.Account m'' (counts ++ later) (passed + more) where
  devices := h.devices.trans h'.devices
  balance := by
    have hfirst := h.balance
    have hsecond := h'.balance
    rw [totalCycles_append]
    omega
  cycles := h'.cycles.trans h.cycles

theorem of_told (h : m.mem.devices.Told [] m'.mem.devices)
    (hpending : m'.pendingTicks = m.pendingTicks + passed) (hcycles : m'.cycles = m.cycles) :
    m.Account m' [] passed :=
  ⟨h, (Nat.zero_add _).trans hpending, hcycles⟩

theorem refl (m : Machine) : m.Account m [] 0 :=
  .of_told .refl rfl rfl

theorem beside (h : m.Account m' counts passed) (hd : m'.mem.devices.Told [] m''.mem.devices)
    (hpending : m''.pendingTicks = m'.pendingTicks) (hcycles : m''.cycles = m'.cycles) :
    m.Account m'' counts passed :=
  ⟨List.append_nil counts ▸ h.devices.trans hd, hpending ▸ h.balance, hcycles.trans h.cycles⟩

theorem on (h : m.Account m' counts passed) (h' : m'.Account m'' [] more) :
    m.Account m'' counts (passed + more) :=
  List.append_nil counts ▸ h.trans h'

theorem after (h : m.Account m' [] 0) (h' : m'.Account m'' later more) : m.Account m'' later more :=
  Nat.zero_add more ▸ h.trans h'

end Account

theorem account_flushTicks (m : Machine) : m.Account m.flushTicks (tickChunks m.pendingTicks) 0 :=
  ⟨.foldl_tick _ _, totalCycles_tickChunks _, rfl⟩

theorem account_interpretOne (m : Machine) : m.Account m.interpretOne [] 0 :=
  interpretOne_induction (P := fun n => m.Account n [] 0) (.refl m)
    ((Account.refl m).beside .refl rfl rfl) (fun _ hn => hn.beside .refl rfl rfl) fun n hn =>
    hn.beside (AddressSpace.accessed_told.stepHandled n.mem (fun _ _ => .refl) _) rfl rfl

theorem account_runDispatched (m : Machine) (remaining : Nat) :
    m.Account (m.runDispatched remaining) [] 0 := by
  unfold runDispatched
  split
  · exact .refl m
  next d _ =>
    dsimp only
    have hexec := AddressSpace.accessed_told.executeWith (fun _ => .refl)
      (m.recompiler.onShop fun shop => { shop with breakout := m.handshake.breakout })
      Session.ampleFuel { m.cpu with dispatch := none } m.mem d.target
      (d.ret.getD Recompiler.noReturn) (UInt64.ofNat remaining)
    unfold Recompiler.execute
    generalize Recompiler.executeWith Session.ampleFuel _ _ _ _ _ _ = e at hexec ⊢
    split <;> exact (Account.refl m).beside hexec rfl rfl

/-! ## What the devices are told -/

def fastForwardTicks (m : Machine) (limit : Nat) : List Word :=
  let skip := min m.flushTicks.mem.devices.cyclesToEvent.toNat limit
  tickChunks m.pendingTicks ++ if skip ≤ 1 then [] else tickChunks skip

def stepTicks (m : Machine) (remaining : Nat) : List Word :=
  let n := m.interpretOne.runDispatched remaining
  let retired := max (n.cpu.count - m.cpu.count).toNat 1
  if n.cpu.pollDetected then
    fastForwardTicks
      { n with pendingTicks := n.pendingTicks + retired, cpu := { n.cpu with pollDetected := false } }
      (remaining - retired)
  else []

def readyTicks (m : Machine) (commands : List Command) : List Word :=
  let n := m.hear commands
  if n.handshake.state = .running ∧ deviceBatch ≤ n.pendingTicks then tickChunks n.pendingTicks else []

def loopTicks : Nat → List (List Command) → Machine → Nat → List Word
  | 0, _, _, _ => []
  | fuel + 1, arrivals, m, remaining =>
    if remaining = 0 then []
    else
      m.readyTicks (arrivals.headD []) ++
        match m.ready (arrivals.headD []) with
        | .error _ => []
        | .ok n =>
          let out := n.stepOnce remaining
          n.stepTicks remaining ++
            if out.1.fatal.isSome then []
            else loopTicks fuel arrivals.tail out.1 (remaining - out.2)

def runTicks (arrivals : List (List Command)) (m : Machine) (maxCycles : Nat) : List Word :=
  let m := m.acknowledge
  match m.handshake.state with
  | .paused => []
  | .stepping count => tickChunks (interpretMany count m).pendingTicks
  | .running =>
    loopTicks maxCycles arrivals m maxCycles ++
      tickChunks (runLoop maxCycles arrivals m maxCycles 0).1.pendingTicks

/-! ## Runs -/

theorem account_fastForward (m : Machine) (limit : Nat) :
    m.Account (m.fastForward limit).1 (m.fastForwardTicks limit) (m.fastForward limit).2 := by
  have hflush := m.account_flushTicks
  unfold fastForward fastForwardTicks
  dsimp only
  generalize min m.flushTicks.mem.devices.cyclesToEvent.toNat limit = skip
  split
  · rw [List.append_nil]
    exact hflush
  · have hskip : m.flushTicks.Account { m.flushTicks with pendingTicks := skip } [] skip :=
      .of_told .refl (Nat.zero_add skip).symm rfl
    have hall := (hflush.on hskip).trans (account_flushTicks _)
    rw [Nat.zero_add, Nat.add_zero] at hall
    exact hall

theorem account_stepOnce (m : Machine) (remaining : Nat) :
    m.Account (m.stepOnce remaining).1 (m.stepTicks remaining) (m.stepOnce remaining).2 := by
  have hrun := m.account_interpretOne.on (m.interpretOne.account_runDispatched remaining)
  unfold stepOnce stepTicks
  dsimp only
  generalize m.interpretOne.runDispatched remaining = n at hrun ⊢
  generalize max (n.cpu.count - m.cpu.count).toNat 1 = retired
  have hpoll : ∀ cpu, m.Account { n with pendingTicks := n.pendingTicks + retired, cpu } [] retired :=
    fun _ => hrun.after (.of_told .refl rfl rfl)
  split
  · exact (hpoll _).trans (account_fastForward _ _)
  · exact hpoll n.cpu

theorem account_interpretMany (m : Machine) (count : Nat) :
    m.Account (interpretMany count m) [] count := by
  induction count generalizing m with
  | zero => exact .refl m
  | succ count ih =>
    have hone : m.Account { m.interpretOne with
        cpu := { m.interpretOne.cpu with dispatch := none }
        pendingTicks := m.interpretOne.pendingTicks + 1 } [] 1 :=
      m.account_interpretOne.after (.of_told .refl rfl rfl)
    have hall := hone.on (ih _)
    rw [Nat.add_comm 1 count] at hall
    exact hall

theorem account_hear (m : Machine) (commands : List Command) : m.Account (m.hear commands) [] 0 := by
  have hsent : m.Account (commands.foldl send m) [] 0 := by
    induction commands generalizing m with
    | nil => exact .refl m
    | cons c commands ih =>
      have hone : m.Account (m.send c) [] 0 := (Account.refl m).beside .refl rfl rfl
      exact hone.after (ih (m.send c))
  unfold hear
  dsimp only
  split
  · exact hsent.beside .refl rfl rfl
  · exact hsent

theorem account_catchUp (m : Machine) : m.Account m.catchUp
    (if deviceBatch ≤ m.pendingTicks then tickChunks m.pendingTicks else []) 0 := by
  unfold catchUp
  split
  · exact m.account_flushTicks
  · exact .refl m

theorem account_of_ready {commands : List Command} {n : Machine} (h : m.ready commands = .ok n) :
    m.Account n (m.readyTicks commands) 0 := by
  obtain ⟨hstate, rfl, -⟩ := ready_eq_ok h
  unfold readyTicks
  simp only [hstate, true_and]
  exact (m.account_hear commands).after (account_catchUp _)

theorem account_of_stopped {commands : List Command} {n : Machine} (h : m.ready commands = .error n) :
    m.Account n (m.readyTicks commands) 0 := by
  unfold readyTicks
  rcases ready_eq_error h with ⟨hstate, rfl⟩ | ⟨hstate, -, rfl⟩
  · simp only [hstate, false_and, if_false]
    exact m.account_hear commands
  · simp only [hstate, true_and]
    exact (m.account_hear commands).after ((account_catchUp _).beside .refl rfl rfl)

theorem account_runLoop (m : Machine) (fuel : Nat) (arrivals : List (List Command))
    (remaining spent : Nat) :
    ∃ passed, (runLoop fuel arrivals m remaining spent).2 = spent + passed ∧
      m.Account (runLoop fuel arrivals m remaining spent).1 (loopTicks fuel arrivals m remaining)
        passed := by
  induction fuel generalizing m arrivals remaining spent with
  | zero => exact ⟨0, rfl, .refl m⟩
  | succ fuel ih =>
    unfold loopTicks
    by_cases hr : remaining = 0
    · rw [runLoop, if_pos hr, if_pos hr]
      exact ⟨0, rfl, .refl m⟩
    rw [if_neg hr]
    cases hready : m.ready (arrivals.headD []) with
    | error n =>
      rw [runLoop_of_stopped hr fuel spent hready]
      dsimp only
      rw [List.append_nil]
      exact ⟨0, rfl, account_of_stopped hready⟩
    | ok n =>
      rw [runLoop_of_ready hr fuel spent hready]
      have hstep := n.account_stepOnce remaining
      dsimp only
      split
      · rw [List.append_nil]
        exact ⟨_, rfl, by simpa using (account_of_ready hready).trans hstep⟩
      · obtain ⟨passed, hpassed, hrest⟩ := ih (n.stepOnce remaining).1 arrivals.tail
          (remaining - (n.stepOnce remaining).2) (spent + (n.stepOnce remaining).2)
        refine ⟨(n.stepOnce remaining).2 + passed, by rw [hpassed, Nat.add_assoc], ?_⟩
        simpa using (account_of_ready hready).trans (hstep.trans hrest)

theorem account_pump (m : Machine) (limit : Nat) : m.Account (m.pump limit).1 [] 0 :=
  (Account.refl m).beside (AddressSpace.accessed_told.pump m.mem m.recompiler.shop _) rfl rfl

/-- The counts that the devices are told are those by which the machine's own count grows, and none is
left over. -/
structure Paid (m n : Machine) (counts : List Word) : Prop where
  told : m.mem.devices.Told counts n.mem.devices
  cycles : n.cycles = m.cycles + totalCycles counts
  pendingTicks : n.pendingTicks = 0

/-- The machine's own count grows last, when everything has been told. -/
theorem Account.paid {counts : List Word} {passed : Nat} (h : m.Account m' counts passed)
    (hm : m.pendingTicks = 0) (hm' : m'.pendingTicks = 0) (handshake : Handshake) :
    m.Paid { m' with cycles := m'.cycles + passed, handshake } counts := by
  have hbalance := h.balance
  have htotal : totalCycles counts = passed := by omega
  exact ⟨h.devices, by rw [htotal, ← h.cycles], hm'⟩

theorem paid_runSteps (h : m.pendingTicks = 0) (count : Nat) :
    m.Paid (m.runSteps count) (tickChunks (interpretMany count m).pendingTicks) :=
  ((m.account_interpretMany count).trans (account_flushTicks _)).paid h rfl _

theorem paid_runWith (h : m.pendingTicks = 0) (arrivals : List (List Command)) (maxCycles : Nat) :
    m.Paid (runWith arrivals m maxCycles).1 (runTicks arrivals m maxCycles) := by
  have hack : m.Account m.acknowledge [] 0 := (Account.refl m).beside .refl rfl rfl
  unfold runWith runTicks
  dsimp only
  cases m.acknowledge.handshake.state with
  | paused => exact hack.paid h h _
  | stepping count =>
    have hsteps := paid_runSteps (m := m.acknowledge) h count
    exact ⟨hsteps.told, hsteps.cycles, hsteps.pendingTicks⟩
  | running =>
    obtain ⟨passed, hpassed, hloop⟩ := m.acknowledge.account_runLoop maxCycles arrivals maxCycles 0
    dsimp only
    rw [hpassed, Nat.zero_add]
    generalize (runLoop maxCycles arrivals m.acknowledge maxCycles 0).1 = n at hloop ⊢
    have hflushed := (hack.after hloop).trans n.account_flushTicks
    exact (hflushed.on (n.flushTicks.account_pump pumpBatch)).paid h rfl _

/-- Guest time is conserved.  Whatever a run does, the devices come from their old state to their new
one by accesses of the guest and by being told the counts of `runTicks`.  These add up to the growth of
the machine's count of cycles, and no cycle is left over.  The countdown to the vertical blank bears it
out. -/
theorem time_conserved (arrivals : List (List Command)) (m : Machine) (h : m.pendingTicks = 0)
    (maxCycles : Nat) :
    let n := (runWith arrivals m maxCycles).1
    m.mem.devices.Told (runTicks arrivals m maxCycles) n.mem.devices ∧
      totalCycles (runTicks arrivals m maxCycles) = n.cycles - m.cycles ∧ m.cycles ≤ n.cycles ∧
      n.pendingTicks = 0 ∧
      (n.mem.devices.vblankCountdown.toNat + (n.cycles - m.cycles)) % 564480 =
        m.mem.devices.vblankCountdown.toNat % 564480 := by
  intro n
  have hpaid : m.Paid n _ := paid_runWith h arrivals maxCycles
  have hgrowth : totalCycles (runTicks arrivals m maxCycles) = n.cycles - m.cycles := by
    rw [hpaid.cycles, Nat.add_sub_cancel_left]
  refine ⟨hpaid.told, hgrowth, ?_, hpaid.pendingTicks, ?_⟩
  · rw [hpaid.cycles]
    exact Nat.le_add_right _ _
  · rw [← hgrowth]
    exact hpaid.told.countdown

/-- Five instructions of the built-in firmware, one by one -/
theorem time_conserved_stepping :
    let m := (create {}).send (.step 5)
    m.pendingTicks = 0 ∧ m.mem.devices.Told [5] (run m 1000).1.mem.devices ∧
      (run m 1000).1.cycles - m.cycles = 5 ∧ (run m 1000).1.pendingTicks = 0 := by
  intro m
  have hm : m.pendingTicks = 0 := rfl
  obtain ⟨htold, htotal, -, hpending, -⟩ := time_conserved [] m hm 1000
  have hstate : m.acknowledge.handshake.state = .stepping 5 := rfl
  have hfive : (interpretMany 5 m.acknowledge).pendingTicks = 5 := by
    have hbalance := (m.acknowledge.account_interpretMany 5).balance
    exact (Nat.zero_add _).symm.trans hbalance
  have hticks : runTicks [] m 1000 = [5] := by
    unfold runTicks
    dsimp only
    rw [hstate]
    dsimp only
    rw [hfive]
    simp [tickChunks]
  rw [hticks] at htold htotal
  exact ⟨hm, htold, htotal.symm, hpending⟩

end Machine

end R3000
