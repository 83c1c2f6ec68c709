import MoshTcp.LinkInput

/-! How the client ends. The three threads share the flag `running`; it is cleared by the exit
key, by the end of standard input and by an error of the connection, and the process is over
when the receive loop has been left. -/

set_option autoImplicit false

namespace MoshTcp.Link
open ByteOrder Protocol Client Runs

variable {σ ρ τ ε : Type} {setup : Setup σ ρ τ ε} {s : State σ ρ τ}

/-- The steps that clear `running`: the stdin thread is in its loop and reads the exit key or
the end of its input, or the receive loop reads something else than a packet or a timeout. -/
def Stops (setup : Setup σ ρ τ ε) (s : State σ ρ τ) : Event ε → Prop
  | .stdin _ (.ok data) =>
    (s.receiver ≠ .left ∧ s.client.left = false ∧ s.client.running = true) ∧
      (data = [] ∨ exitKey ∈ data)
  | .connectionError => s.receiver = .blocked
  | .receiver => s.receiver = .blocked ∧
    ∃ e rest, readPacket (Bursts.readExact setup.os) ⟨s.unread, []⟩ = (.error e, rest) ∧
      ¬ (e.kind = .wouldBlock ∨ e.kind = .timedOut)
  | _ => False

theorem pass_stopped_iff (vt : Vt100 σ) (c : InputLoop σ) (size : Option (UInt16 × UInt16))
    (read : StdinRead) :
    (c.step vt (.pass size read)).running = false ↔
      c.running = false ∨ (c.left = false ∧ c.running = true) ∧
        ∃ data, read = .ok data ∧ (data = [] ∨ exitKey ∈ data) := by
  obtain ⟨-, hrunning, -⟩ := pollSize_frame vt c size
  simp only [InputLoop.step]
  cases hl : c.left with
  | true => simp
  | false =>
    cases hr : c.running with
    | false => simp
    | true =>
      rw [hr] at hrunning
      simp only [Bool.false_eq_true, if_false, if_true]
      generalize c.pollSize vt size = r at hrunning
      cases read with
      | wouldBlock => simp [InputLoop.readStdin, hrunning]
      | failed => simp [InputLoop.readStdin, hrunning]
      | ok data =>
        simp only [InputLoop.readStdin, List.isEmpty_iff, List.contains_iff_mem]
        split
        · simp_all
        · split
          · simp_all
          · simp_all [InputLoop.typed]

theorem receive_stopped_iff (setup : Setup σ ρ τ ε) (s : State σ ρ τ) :
    (s.receive setup).client.running = false ↔
      s.client.running = false ∨ Stops setup s (.receiver : Event ε) := by
  rw [State.receive]
  cases hstage : s.receiver with
  | test => simp [Stops, hstage]
  | left => simp [Stops, hstage]
  | blocked =>
    simp only [Stops, hstage, true_and]
    rcases readPacket (Bursts.readExact setup.os) ⟨s.unread, []⟩ with ⟨e | packet, rest⟩
    · dsimp only
      by_cases hkind : e.kind = .wouldBlock ∨ e.kind = .timedOut
      · rw [if_pos hkind]
        refine (or_iff_left ?_).symm
        rintro ⟨e', rest', heq, hne⟩
        obtain rfl := Except.error.inj (Prod.mk.inj heq).1
        exact hne hkind
      · rw [if_neg hkind]
        exact iff_of_true rfl (.inr ⟨e, rest, rfl, hkind⟩)
    · have hrunning := (render_queued setup setup.server.gzip s.client packet).2.2
      simp [hrunning]

theorem send_frame (s : State σ ρ τ) (accepted : Nat) :
    (s.send accepted).client = s.client ∧ (s.send accepted).receiver = s.receiver := by
  rw [State.send]
  split
  · exact ⟨rfl, rfl⟩
  · split
    · exact ⟨rfl, rfl⟩
    · split
      · rw [State.write]
        split
        · split <;> exact ⟨rfl, rfl⟩
        · exact ⟨rfl, rfl⟩
      · exact ⟨rfl, rfl⟩
    · exact ⟨rfl, rfl⟩

theorem step_stopped_iff (setup : Setup σ ρ τ ε) (s : State σ ρ τ) (e : Event ε) :
    (step setup s e).client.running = false ↔ s.client.running = false ∨ Stops setup s e := by
  cases e with
  | stdin size read =>
    rw [step, State.stdin]
    by_cases hleft : s.receiver = .left
    · rw [if_pos hleft]
      cases read <;> simp [Stops, hleft]
    · rw [if_neg hleft, pass_stopped_iff]
      cases read <;> simp [Stops, hleft]
  | sender accepted =>
    rw [step, (send_frame s accepted).1]
    simp [Stops]
  | receiver => exact receive_stopped_iff setup s
  | connectionError =>
    rw [step]
    by_cases hblocked : s.receiver = .blocked
    · rw [if_pos hblocked]
      exact iff_of_true rfl (.inr hblocked)
    · rw [if_neg hblocked]
      simp [Stops, hblocked]
  | toServer n =>
    rw [step]
    split <;> simp [Stops]
  | hangup => simp [step, Stops]
  | toClient n => simp [step, Stops]
  | next => simp [step, Stops]
  | server e he => simp [step, Stops]
  | sendTaskDone => simp [step, Stops]

/-- The turns that the receive loop needs to be left. -/
def turns : Stage → Nat
  | .blocked => 2
  | .test => 1
  | .left => 0

theorem turns_le (stage : Stage) : turns stage ≤ 2 := by
  cases stage <;> decide

def isReceiver : Event ε → Bool
  | .receiver => true
  | _ => false

theorem receive_turns (setup : Setup σ ρ τ ε) (hstopped : s.client.running = false) :
    turns (s.receive setup).receiver ≤ turns s.receiver - 1 := by
  rw [State.receive]
  cases hstage : s.receiver with
  | test => simp [hstopped, turns]
  | left => simp [hstage, turns]
  | blocked =>
    dsimp only
    split
    · exact Nat.le_refl 1
    · split
      · exact Nat.le_refl 1
      · exact Nat.zero_le 1

theorem step_receiver (s : State σ ρ τ) {e : Event ε} (he : isReceiver e = false) :
    turns (step setup s e).receiver ≤ turns s.receiver := by
  cases e with
  | receiver => cases he
  | stdin size read =>
    rw [step, State.stdin]
    split <;> exact Nat.le_refl _
  | sender accepted => exact Nat.le_of_eq (congrArg turns (send_frame s accepted).2)
  | connectionError =>
    rw [step]
    split
    · exact Nat.zero_le _
    · exact Nat.le_refl _
  | toServer n =>
    rw [step]
    split <;> exact Nat.le_refl _
  | hangup => exact Nat.le_refl _
  | toClient n => exact Nat.le_refl _
  | next => exact Nat.le_refl _
  | server e he => exact Nat.le_refl _
  | sendTaskDone => exact Nat.le_refl _

theorem run_turns (hstopped : s.client.running = false) (es : List (Event ε))
    (hturns : turns s.receiver ≤ es.countP isReceiver) :
    (run (step setup) s es).receiver = .left := by
  induction es generalizing s with
  | nil =>
    rw [List.countP_nil, Nat.le_zero] at hturns
    rw [run_nil]
    cases hstage : s.receiver with
    | left => rfl
    | test => simp [hstage, turns] at hturns
    | blocked => simp [hstage, turns] at hturns
  | cons e es ih =>
    have hrest : (step setup s e).client.running = false :=
      (step_stopped_iff setup s e).2 (.inl hstopped)
    refine ih hrest ?_
    cases hturn : isReceiver e with
    | false =>
      rw [List.countP_cons_of_neg (by simp [hturn])] at hturns
      exact (step_receiver s hturn).trans hturns
    | true =>
      cases e with
      | receiver =>
        rw [List.countP_cons_of_pos rfl] at hturns
        have hfewer := receive_turns setup hstopped
        rw [step]
        omega
      | _ => cases hturn

/-- The receive loop is left because the flag is down, or lowers it. -/
theorem receive_left (h : s.receiver = .left → s.client.running = false)
    (hleft : (s.receive setup).receiver = .left) :
    (s.receive setup).client.running = false := by
  rw [State.receive] at hleft ⊢
  split at hleft
  · cases hrunning : s.client.running with
    | true => simp [hrunning] at hleft
    | false => rfl
  · split at hleft
    · cases hleft
    · split at hleft
      · cases hleft
      · rename_i hkind
        rw [if_neg hkind]
        rfl
  · exact h hleft

theorem step_left_stopped (h : s.receiver = .left → s.client.running = false) (e : Event ε)
    (hleft : (step setup s e).receiver = .left) : (step setup s e).client.running = false := by
  have hbefore : s.client.running = false → (step setup s e).client.running = false :=
    fun hstopped => (step_stopped_iff setup s e).2 (.inl hstopped)
  cases e with
  | receiver => exact receive_left h hleft
  | connectionError =>
    rw [step] at hleft ⊢
    split
    · rfl
    · rename_i hblocked
      rw [if_neg hblocked] at hleft
      exact h hleft
  | stdin size read =>
    rw [step, State.stdin] at hleft
    split at hleft <;> exact hbefore (h hleft)
  | sender accepted =>
    rw [step, (send_frame s accepted).2] at hleft
    exact hbefore (h hleft)
  | toServer n =>
    rw [step] at hleft
    split at hleft <;> exact hbefore (h hleft)
  | hangup => exact h hleft
  | toClient n => exact h hleft
  | next => exact h hleft
  | server e he => exact h hleft
  | sendTaskDone => exact h hleft

/-- The flag is down exactly if something stopped the client, the process is over only then, and
it is over once the receive loop has made two more turns, whatever happens meanwhile. -/
theorem client_ends (setup : Setup σ ρ τ ε) (accepted : Nat) (es : List (Event ε)) :
    ((link setup accepted es).client.running = false ↔
      ∃ pre e post, es = pre ++ e :: post ∧ Stops setup (link setup accepted pre) e) ∧
    ((link setup accepted es).receiver = .left →
      (link setup accepted es).client.running = false) ∧
    ((link setup accepted es).client.running = false →
      ∀ fs, 2 ≤ fs.countP isReceiver → (link setup accepted (es ++ fs)).receiver = .left) := by
  refine ⟨?_, ?_, ?_⟩
  · have hflag := run_flag_iff (F := fun s : State σ ρ τ => s.client.running = false)
      (s := .start setup accepted) (step_stopped_iff setup) es
    rwa [or_iff_right (by simp [State.start, InputLoop.start])] at hflag
  · exact run_preserves (I := fun s : State σ ρ τ => s.receiver = .left → s.client.running = false)
      (fun h => by cases h) (fun _ e h => step_left_stopped h e) es
  · intro hstopped fs hturns
    rw [link_append]
    exact run_turns hstopped fs ((turns_le _).trans hturns)

end MoshTcp.Link
