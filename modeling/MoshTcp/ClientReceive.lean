import MoshTcp.Codec

/-! The receive loop of the Rust client (src/client.rs). A schedule says in which pieces
the bytes reach the socket and where a read times out. `Bursts` is the abstract view of
a schedule: only the bytes between two timeouts matter, not the pieces. -/

set_option autoImplicit false

namespace MoshTcp.Client
open ByteOrder Protocol

inductive SocketEvent where
  | arrive (piece : Bytes)
  | timeout
  deriving DecidableEq, Repr

/-- A read timeout is reported as `WouldBlock` on Unix and as `TimedOut` on Windows. -/
inductive Platform where
  | unix | windows
  deriving DecidableEq, Repr

def Platform.timeoutError : Platform → IoError
  | .unix => ⟨.wouldBlock, "Resource temporarily unavailable"⟩
  | .windows => ⟨.timedOut, "connection timed out"⟩

/-- `Read::read_exact` on the socket. A timeout fails the call and the bytes it had
already taken are gone; after the last event nothing arrives any more. -/
def readExact (os : Platform) : Nat → List SocketEvent → Except IoError Bytes × List SocketEvent
  | 0, evs => (.ok [], evs)
  | _ + 1, [] => (.error os.timeoutError, [])
  | _ + 1, .timeout :: evs => (.error os.timeoutError, evs)
  | n + 1, .arrive piece :: evs =>
    if n + 1 ≤ piece.length then
      (.ok (piece.take (n + 1)), .arrive (piece.drop (n + 1)) :: evs)
    else
      match readExact os (n + 1 - piece.length) evs with
      | (.ok bs, rest) => (.ok (piece ++ bs), rest)
      | (.error e, rest) => (.error e, rest)

def readPacket {σ : Type} (readExact : Nat → σ → Except IoError Bytes × σ) (reader : σ) :
    Except IoError Packet × σ :=
  match readExact 4 reader with
  | (.error e, reader) => (.error e, reader)
  | (.ok lenBytes, reader) =>
    match readExact (beNat lenBytes) reader with
    | (.error e, reader) => (.error e, reader)
    | (.ok buf, reader) => (Packet.deserialize buf, reader)

/-- The packets `read_packet` returns in the first `n` rounds of the receive loop. -/
def receiveLoop {σ : Type} (readExact : Nat → σ → Except IoError Bytes × σ) :
    Nat → σ → List Packet
  | 0, _ => []
  | n + 1, socket =>
    match readPacket readExact socket with
    | (.ok packet, socket) => packet :: receiveLoop readExact n socket
    | (.error e, socket) =>
      if e.kind = .wouldBlock ∨ e.kind = .timedOut then receiveLoop readExact n socket else []

def arrived : List SocketEvent → Bytes
  | [] => []
  | .arrive piece :: evs => piece ++ arrived evs
  | .timeout :: evs => arrived evs

/-- No timeout strikes inside a frame: what had arrived before it is whole frames. -/
def TimeoutsBetweenFrames (ps : List Packet) (evs : List SocketEvent) : Prop :=
  ∀ pre post, evs = pre ++ .timeout :: post → ∃ k, arrived pre = encodeAll (ps.take k)

/-- Packets come out in the order they were sent, none invented; and all of them once
all bytes have arrived. -/
def InOrder (os : Platform) (ps : List Packet) (evs : List SocketEvent) : Prop :=
  (∀ n, receiveLoop (readExact os) n evs <+: ps) ∧
    (arrived evs = encodeAll ps → ∃ N, ∀ n ≥ N, receiveLoop (readExact os) n evs = ps)

structure Bursts where
  now : Bytes
  later : List Bytes
  deriving DecidableEq, Repr

def Bursts.next : Bursts → Bursts
  | ⟨_, []⟩ => ⟨[], []⟩
  | ⟨_, b :: bs⟩ => ⟨b, bs⟩

def Bursts.bytes (s : Bursts) : Bytes := s.now ++ s.later.flatten

def Bursts.readExact (os : Platform) (n : Nat) (s : Bursts) : Except IoError Bytes × Bursts :=
  if n ≤ s.now.length then (.ok (s.now.take n), ⟨s.now.drop n, s.later⟩)
  else (.error os.timeoutError, s.next)

def bursts : List SocketEvent → Bursts
  | [] => ⟨[], []⟩
  | .arrive piece :: evs => ⟨piece ++ (bursts evs).now, (bursts evs).later⟩
  | .timeout :: evs => ⟨[], (bursts evs).now :: (bursts evs).later⟩

theorem Bursts.next_eq_of_later {s t : Bursts} (h : s.later = t.later) : s.next = t.next := by
  obtain ⟨_, later⟩ := s
  obtain ⟨_, _⟩ := t
  subst h
  cases later <;> rfl

theorem bursts_bytes (evs : List SocketEvent) : (bursts evs).bytes = arrived evs := by
  induction evs with
  | nil => rfl
  | cons ev evs ih =>
    cases ev <;> simp_all [bursts, arrived, Bursts.bytes]

theorem readExact_bursts (os : Platform) (n : Nat) (evs : List SocketEvent) :
    (bursts evs).readExact os n = Prod.map id bursts (readExact os n evs) := by
  induction evs generalizing n with
  | nil =>
    cases n with
    | zero => simp [readExact, Bursts.readExact, bursts]
    | succ n => simp [readExact, Bursts.readExact, bursts, Bursts.next]
  | cons ev evs ih =>
    cases n with
    | zero => simp [readExact, Bursts.readExact]
    | succ n =>
      cases ev with
      | timeout => simp [readExact, Bursts.readExact, bursts, Bursts.next]
      | arrive piece =>
        by_cases hle : n + 1 ≤ piece.length
        · have hlong : n + 1 ≤ (bursts (.arrive piece :: evs)).now.length := by
            simp only [bursts, List.length_append]; omega
          simp only [Bursts.readExact, if_pos hlong, readExact, if_pos hle, Prod.map_apply, id_eq]
          simp [bursts, List.take_append_of_le_length hle, List.drop_append_of_le_length hle]
        · have hi := ih (n + 1 - piece.length)
          have hnow : (bursts (.arrive piece :: evs)).now = piece ++ (bursts evs).now := rfl
          have htake : piece.take (n + 1) = piece := List.take_of_length_le (by omega)
          have hdrop : piece.drop (n + 1) = [] := List.drop_eq_nil_of_le (by omega)
          rw [readExact, if_neg hle]
          by_cases hb : n + 1 - piece.length ≤ (bursts evs).now.length
          · rw [Bursts.readExact, if_pos hb] at hi
            rw [Bursts.readExact, if_pos (by rw [hnow, List.length_append]; omega), hnow,
              List.take_append, List.drop_append, htake, hdrop]
            rcases hr : readExact os (n + 1 - piece.length) evs with ⟨e | bs, rest⟩
            · simp [hr] at hi
            · simp only [hr, Prod.map_apply, id_eq, Prod.mk.injEq, Except.ok.injEq] at hi ⊢
              exact ⟨by rw [hi.1], by rw [← hi.2]; rfl⟩
          · rw [Bursts.readExact, if_neg hb] at hi
            rw [Bursts.readExact, if_neg (by rw [hnow, List.length_append]; omega)]
            rcases hr : readExact os (n + 1 - piece.length) evs with ⟨e | bs, rest⟩
            · simp only [hr, Prod.map_apply, id_eq, Prod.mk.injEq, Except.error.injEq] at hi ⊢
              exact ⟨hi.1, by rw [← hi.2]; exact Bursts.next_eq_of_later rfl⟩
            · simp [hr] at hi

theorem readPacket_bursts (os : Platform) (evs : List SocketEvent) :
    readPacket (Bursts.readExact os) (bursts evs) =
      Prod.map id bursts (readPacket (readExact os) evs) := by
  unfold readPacket
  rw [readExact_bursts]
  rcases readExact os 4 evs with ⟨e | lenBytes, rest⟩
  · rfl
  · simp only [Prod.map_apply, id_eq]
    rw [readExact_bursts]
    rcases readExact os (beNat lenBytes) rest with ⟨e | buf, rest'⟩ <;> rfl

theorem receiveLoop_bursts (os : Platform) (n : Nat) (evs : List SocketEvent) :
    receiveLoop (readExact os) n evs = receiveLoop (Bursts.readExact os) n (bursts evs) := by
  induction n generalizing evs with
  | zero => rfl
  | succ n ih =>
    rw [receiveLoop, receiveLoop, readPacket_bursts]
    rcases readPacket (readExact os) evs with ⟨e | packet, rest⟩ <;>
      simp only [Prod.map_apply, id_eq, ih]

def Sendable (ps : List Packet) : Prop :=
  ∀ p ∈ ps, p.Fits ∧ p.serialize.length < 2 ^ 32

theorem Sendable.tail {p : Packet} {ps : List Packet} (h : Sendable (p :: ps)) : Sendable ps :=
  fun q hq => h q (by simp [hq])

theorem Sendable.drop {ps : List Packet} (h : Sendable ps) (k : Nat) : Sendable (ps.drop k) :=
  fun q hq => h q (List.mem_of_mem_drop hq)

theorem encodeAll_nil : encodeAll [] = [] := rfl

theorem encodeAll_cons (p : Packet) (ps : List Packet) :
    encodeAll (p :: ps) = PacketCodec.encode p ++ encodeAll ps := by simp [encodeAll]

theorem encodeAll_append (ps qs : List Packet) :
    encodeAll (ps ++ qs) = encodeAll ps ++ encodeAll qs := by simp [encodeAll]

theorem encodeAll_split (ps : List Packet) (k : Nat) :
    encodeAll ps = encodeAll (ps.take k) ++ encodeAll (ps.drop k) := by
  rw [← encodeAll_append, List.take_append_drop]

theorem encode_length (p : Packet) :
    (PacketCodec.encode p).length = 4 + p.serialize.length := by simp [PacketCodec.encode]

theorem readPacket_of_reads {σ : Type} {read : Nat → σ → Except IoError Bytes × σ} {r r' r'' : σ}
    {n : Nat} {buf : Bytes} (hn : n < 2 ^ 32) (h₁ : read 4 r = (.ok (beBytes 4 n), r'))
    (h₂ : read n r' = (.ok buf, r'')) :
    readPacket read r = (Packet.deserialize buf, r'') := by
  simp only [readPacket, h₁, beNat_beBytes_word hn, h₂]

theorem readPacket_of_short {σ : Type} {read : Nat → σ → Except IoError Bytes × σ} {r r' r'' : σ}
    {n : Nat} {e : IoError} (hn : n < 2 ^ 32) (h₁ : read 4 r = (.ok (beBytes 4 n), r'))
    (h₂ : read n r' = (.error e, r'')) :
    readPacket read r = (.error e, r'') := by
  simp only [readPacket, h₁, beNat_beBytes_word hn, h₂]

theorem Bursts.readExact_of_le (os : Platform) (n : Nat) (now : Bytes) (later : List Bytes)
    (h : n ≤ now.length) :
    Bursts.readExact os n ⟨now, later⟩ = (.ok (now.take n), ⟨now.drop n, later⟩) := by
  simp [Bursts.readExact, h]

theorem Bursts.readExact_of_lt (os : Platform) (n : Nat) (now : Bytes) (later : List Bytes)
    (h : now.length < n) :
    Bursts.readExact os n ⟨now, later⟩ = (.error os.timeoutError, Bursts.next ⟨now, later⟩) := by
  simp [Bursts.readExact, Nat.not_le.mpr h]

theorem readPacket_encode (os : Platform) (p : Packet) (hp : p.Fits)
    (hs : p.serialize.length < 2 ^ 32) (tail : Bytes) (later : List Bytes) :
    readPacket (Bursts.readExact os) ⟨PacketCodec.encode p ++ tail, later⟩ =
      (.ok p, ⟨tail, later⟩) := by
  have hpay := deserialize_serialize p hp []
  rw [List.append_nil] at hpay
  have hcut : PacketCodec.encode p ++ tail =
      beBytes 4 p.serialize.length ++ (p.serialize ++ tail) := by
    rw [PacketCodec.encode, List.append_assoc]
  have h₁ := Bursts.readExact_of_le os 4 (PacketCodec.encode p ++ tail) later
    (by rw [List.length_append, encode_length]; omega)
  have h₂ := Bursts.readExact_of_le os p.serialize.length (p.serialize ++ tail) later (by simp)
  rw [hcut, List.take_left' (beBytes_length 4 _), drop_beBytes] at h₁
  rw [List.take_left, List.drop_left] at h₂
  rw [hcut, readPacket_of_reads hs h₁ h₂, hpay]

theorem readPacket_short (os : Platform) {p : Packet} (hs : p.serialize.length < 2 ^ 32)
    {now : Bytes} {later : List Bytes} (hpre : now <+: PacketCodec.encode p)
    (hlt : now.length < (PacketCodec.encode p).length) :
    readPacket (Bursts.readExact os) ⟨now, later⟩ =
      (.error os.timeoutError, Bursts.next ⟨now, later⟩) := by
  by_cases h4 : 4 ≤ now.length
  · obtain ⟨rest, hrest⟩ := hpre
    have htake : now.take 4 = beBytes 4 p.serialize.length := by
      have := congrArg (List.take 4) hrest
      rwa [List.take_append_of_le_length h4, PacketCodec.encode,
        List.take_left' (beBytes_length 4 _)] at this
    have h₁ := Bursts.readExact_of_le os 4 now later h4
    have h₂ := Bursts.readExact_of_lt os p.serialize.length (now.drop 4) later
      (by rw [encode_length] at hlt; rw [List.length_drop]; omega)
    rw [htake] at h₁
    rw [readPacket_of_short hs h₁ h₂]
    exact congrArg _ (Bursts.next_eq_of_later rfl)
  · have h₁ := Bursts.readExact_of_lt os 4 now later (Nat.not_le.mp h4)
    simp only [readPacket, h₁]

/-- Every burst but the last is whole frames of what is still to come, and the last is
the start of what is left. -/
def Aligned : List Packet → Bytes → List Bytes → Prop
  | ps, now, [] => now <+: encodeAll ps
  | ps, now, b :: bs => ∃ k, now = encodeAll (ps.take k) ∧ Aligned (ps.drop k) b bs

theorem receiveLoop_timeout (os : Platform) (n : Nat) {s t : Bursts}
    (h : readPacket (Bursts.readExact os) s = (.error os.timeoutError, t)) :
    receiveLoop (Bursts.readExact os) (n + 1) s = receiveLoop (Bursts.readExact os) n t := by
  rw [receiveLoop, h]
  cases os <;> simp [Platform.timeoutError]

theorem receiveLoop_packet (os : Platform) (n : Nat) {s t : Bursts} {p : Packet}
    (h : readPacket (Bursts.readExact os) s = (.ok p, t)) :
    receiveLoop (Bursts.readExact os) (n + 1) s = p :: receiveLoop (Bursts.readExact os) n t := by
  rw [receiveLoop, h]

theorem receiveLoop_idle (os : Platform) (n : Nat) (later : List Bytes) :
    receiveLoop (Bursts.readExact os) (n + 1) ⟨[], later⟩ =
      receiveLoop (Bursts.readExact os) n (Bursts.next ⟨[], later⟩) := by
  apply receiveLoop_timeout
  have h₁ := Bursts.readExact_of_lt os 4 [] later (by simp)
  simp only [readPacket, h₁]

theorem Aligned.nil_now {now : Bytes} {later : List Bytes} (h : Aligned [] now later) :
    now = [] := by
  cases later with
  | nil => simpa [Aligned, encodeAll] using h
  | cons b bs =>
    obtain ⟨k, hk, -⟩ := h
    simpa [encodeAll] using hk

theorem Aligned.cases {p : Packet} {ps : List Packet} {now : Bytes} {later : List Bytes}
    (h : Aligned (p :: ps) now later) :
    (∃ tail, now = PacketCodec.encode p ++ tail ∧ Aligned ps tail later) ∨
      (∃ b bs, now = [] ∧ later = b :: bs ∧ Aligned (p :: ps) b bs) ∨
      (later = [] ∧ now <+: PacketCodec.encode p ∧
        now.length < (PacketCodec.encode p).length) := by
  cases later with
  | nil =>
    rw [Aligned, encodeAll_cons] at h
    by_cases hlen : (PacketCodec.encode p).length ≤ now.length
    · have hp : PacketCodec.encode p <+: now :=
        List.prefix_of_prefix_length_le (List.prefix_append _ _) h hlen
      obtain ⟨tail, rfl⟩ := hp
      exact .inl ⟨tail, rfl, (List.prefix_append_right_inj _).mp h⟩
    · have hn : now <+: PacketCodec.encode p :=
        List.prefix_of_prefix_length_le h (List.prefix_append _ _) (by omega)
      exact .inr (.inr ⟨rfl, hn, by omega⟩)
  | cons b bs =>
    obtain ⟨k, hk, ha⟩ := h
    cases k with
    | zero => exact .inr (.inl ⟨b, bs, by simpa [encodeAll] using hk, rfl, by simpa using ha⟩)
    | succ k =>
      rw [List.take_succ_cons, encodeAll_cons] at hk
      exact .inl ⟨encodeAll (ps.take k), hk, k, rfl, by simpa using ha⟩

theorem Aligned.next_nil {now : Bytes} {later : List Bytes} (h : Aligned [] now later) :
    Aligned [] (Bursts.next ⟨now, later⟩).now (Bursts.next ⟨now, later⟩).later := by
  cases later with
  | nil => simp [Bursts.next, Aligned]
  | cons b bs =>
    obtain ⟨k, -, ha⟩ := h
    simpa [Bursts.next] using ha

theorem receiveLoop_prefix (os : Platform) (n : Nat) {ps : List Packet} (hps : Sendable ps)
    {now : Bytes} {later : List Bytes} (h : Aligned ps now later) :
    receiveLoop (Bursts.readExact os) n ⟨now, later⟩ <+: ps := by
  induction n generalizing ps now later with
  | zero => exact List.nil_prefix
  | succ n ih =>
    cases ps with
    | nil =>
      obtain rfl := h.nil_now
      rw [receiveLoop_idle]
      exact ih hps h.next_nil
    | cons p ps =>
      obtain ⟨hf, hs⟩ := hps p (by simp)
      rcases h.cases with ⟨tail, rfl, ha⟩ | ⟨b, bs, rfl, rfl, ha⟩ | ⟨rfl, hpre, hlt⟩
      · rw [receiveLoop_packet os n (readPacket_encode os p hf hs tail later)]
        exact List.cons_prefix_cons.mpr ⟨rfl, ih hps.tail ha⟩
      · rw [receiveLoop_idle]
        exact ih hps ha
      · rw [receiveLoop_timeout os n (readPacket_short os hs hpre hlt)]
        exact ih hps List.nil_prefix

theorem receiveLoop_complete (os : Platform) (n : Nat) {ps : List Packet} (hps : Sendable ps)
    {now : Bytes} {later : List Bytes} (h : Aligned ps now later)
    (hall : (Bursts.mk now later).bytes = encodeAll ps) (hn : ps.length + later.length ≤ n) :
    receiveLoop (Bursts.readExact os) n ⟨now, later⟩ = ps := by
  induction n generalizing ps now later with
  | zero =>
    have : ps = [] := List.length_eq_zero_iff.mp (by omega)
    rw [this]
    rfl
  | succ n ih =>
    cases ps with
    | nil =>
      have hpre := receiveLoop_prefix os (n + 1) hps h
      exact List.prefix_nil.mp hpre
    | cons p ps =>
      obtain ⟨hf, hs⟩ := hps p (by simp)
      rcases h.cases with ⟨tail, rfl, ha⟩ | ⟨b, bs, rfl, rfl, ha⟩ | ⟨rfl, hpre, hlt⟩
      · rw [receiveLoop_packet os n (readPacket_encode os p hf hs tail later)]
        rw [encodeAll_cons, Bursts.bytes, List.append_assoc, List.append_cancel_left_eq] at hall
        rw [ih hps.tail ha hall (by simp at hn; omega)]
      · rw [receiveLoop_idle]
        exact ih hps ha (by simpa [Bursts.bytes] using hall) (by simp at hn ⊢; omega)
      · rw [encodeAll_cons, Bursts.bytes] at hall
        have hl := congrArg List.length hall
        simp only [List.length_append, List.flatten_nil, List.length_nil] at hl
        omega

theorem take_encode_of_append {ps : List Packet} {k k' : Nat} {rest : Bytes}
    (h : encodeAll (ps.take k) ++ rest = encodeAll (ps.take k')) :
    ∃ j, rest = encodeAll ((ps.drop k).take j) := by
  by_cases hk : k ≤ k'
  · have hsplit : ps.take k' = ps.take k ++ (ps.drop k).take (k' - k) := by
      rw [← List.take_add, Nat.add_sub_cancel' hk]
    rw [hsplit, encodeAll_append, List.append_cancel_left_eq] at h
    exact ⟨k' - k, h⟩
  · have hsplit : ps.take k = ps.take k' ++ (ps.drop k').take (k - k') := by
      rw [← List.take_add, Nat.add_sub_cancel' (by omega)]
    have hl := congrArg List.length h
    rw [hsplit, encodeAll_append] at hl
    simp only [List.length_append] at hl
    exact ⟨0, by simpa [encodeAll] using List.length_eq_zero_iff.mp (by omega : rest.length = 0)⟩

/-- The two ways of saying that timeouts fall between frames, after `acc` has arrived. -/
theorem aligned_iff_cuts (ps : List Packet) (evs : List SocketEvent) (acc : Bytes) :
    Aligned ps (acc ++ (bursts evs).now) (bursts evs).later ↔
      acc ++ arrived evs <+: encodeAll ps ∧
        ∀ pre post, evs = pre ++ .timeout :: post →
          ∃ k, acc ++ arrived pre = encodeAll (ps.take k) := by
  induction evs generalizing ps acc with
  | nil => simp [bursts, arrived, Aligned]
  | cons ev evs ih =>
    cases ev with
    | arrive piece =>
      have hi := ih ps (acc ++ piece)
      simp only [bursts, arrived, ← List.append_assoc]
      rw [hi]
      refine and_congr_right fun _ => ⟨fun h pre post he => ?_, fun h pre post he => ?_⟩
      · cases pre with
        | nil => simp at he
        | cons ev pre =>
          rw [List.cons_append, List.cons.injEq] at he
          obtain ⟨k, hk⟩ := h pre post he.2
          exact ⟨k, by rw [← he.1, arrived, ← List.append_assoc, hk]⟩
      · obtain ⟨k, hk⟩ := h (.arrive piece :: pre) post (by rw [he, List.cons_append])
        exact ⟨k, by rw [← hk, arrived, List.append_assoc]⟩
    | timeout =>
      simp only [bursts, arrived, List.append_nil, Aligned]
      constructor
      · rintro ⟨k, rfl, ha⟩
        have hi := (ih (ps.drop k) []).mp (by simpa using ha)
        simp only [List.nil_append] at hi
        refine ⟨?_, fun pre post he => ?_⟩
        · rw [encodeAll_split ps k]
          exact (List.prefix_append_right_inj _).mpr hi.1
        · cases pre with
          | nil => exact ⟨k, by simp [arrived]⟩
          | cons ev pre =>
            rw [List.cons_append, List.cons.injEq] at he
            obtain ⟨j, hj⟩ := hi.2 pre post he.2
            refine ⟨k + j, ?_⟩
            rw [← he.1, arrived, hj, List.take_add, encodeAll_append]
      · rintro ⟨hpre, hcut⟩
        obtain ⟨k, hk⟩ := hcut [] evs rfl
        rw [arrived, List.append_nil] at hk
        subst hk
        refine ⟨k, rfl, ?_⟩
        have hi := (ih (ps.drop k) []).mpr
        simp only [List.nil_append] at hi
        refine hi ⟨?_, fun pre post he => ?_⟩
        · rw [encodeAll_split ps k] at hpre
          exact (List.prefix_append_right_inj _).mp hpre
        · obtain ⟨k', hk'⟩ := hcut (.timeout :: pre) post (by rw [he, List.cons_append])
          exact take_encode_of_append hk'

theorem aligned_iff_timeoutsBetween {ps : List Packet} {evs : List SocketEvent}
    (harr : arrived evs <+: encodeAll ps) :
    Aligned ps (bursts evs).now (bursts evs).later ↔ TimeoutsBetweenFrames ps evs := by
  have h := aligned_iff_cuts ps evs []
  simp only [List.nil_append] at h
  rw [h]
  exact ⟨fun hc => hc.2, fun hc => ⟨harr, hc⟩⟩

def IsServerFrame : Packet → Prop
  | .serverFrame _ _ _ => True
  | _ => False

theorem deserialize_serverFrame_length {buf data : Bytes} {seq : UInt64} {compressed : Bool}
    (h : Packet.deserialize buf = .ok (.serverFrame seq data compressed)) :
    14 + data.length ≤ buf.length := by
  cases buf with
  | nil => simp [Packet.deserialize, unexpectedEof] at h
  | cons tag src =>
    simp only [Packet.deserialize, unexpectedEof] at h
    repeat' split at h
    all_goals try simp at h
    obtain ⟨-, rfl, -⟩ := h
    simp only [List.length_take, List.length_drop, List.length_cons] at *
    omega

theorem encode_length_le_of_deserialize {buf : Bytes} {p : Packet}
    (h : Packet.deserialize buf = .ok p) (hp : IsServerFrame p) :
    (PacketCodec.encode p).length ≤ 4 + buf.length := by
  cases p with
  | serverFrame seq data compressed =>
    have hd := deserialize_serverFrame_length h
    rw [encode_length]
    simp only [Packet.serialize, List.length_append, beBytes_length, List.length_cons,
      List.length_nil]
    omega
  | _ => exact absurd hp (by simp [IsServerFrame])

/-- One call of `read_packet` on bursts: a payload of `len` bytes is decoded, or the
burst ends first and is dropped. -/
theorem readPacket_cases (os : Platform) (s : Bursts) :
    (∃ len, 4 + len ≤ s.now.length ∧ readPacket (Bursts.readExact os) s =
        (Packet.deserialize ((s.now.drop 4).take len), ⟨s.now.drop (4 + len), s.later⟩)) ∨
      readPacket (Bursts.readExact os) s = (.error os.timeoutError, s.next) := by
  obtain ⟨now, later⟩ := s
  by_cases h4 : 4 ≤ now.length
  · have h₁ := Bursts.readExact_of_le os 4 now later h4
    by_cases hl : beNat (now.take 4) ≤ (now.drop 4).length
    · have h₂ := Bursts.readExact_of_le os _ (now.drop 4) later hl
      rw [List.length_drop] at hl
      refine .inl ⟨beNat (now.take 4), by simp only; omega, ?_⟩
      simp only [readPacket, h₁, h₂, List.drop_drop]
    · have h₂ := Bursts.readExact_of_lt os _ (now.drop 4) later (Nat.not_le.mp hl)
      refine .inr ?_
      simp only [readPacket, h₁, h₂]
      exact congrArg _ (Bursts.next_eq_of_later rfl)
  · have h₁ := Bursts.readExact_of_lt os 4 now later (Nat.not_le.mp h4)
    exact .inr (by simp only [readPacket, h₁])

/-- The burst boundaries are packet boundaries of `qs`, by length only. -/
def CutsMatch : List Packet → Bytes → List Bytes → Prop
  | _, _, [] => True
  | qs, now, b :: bs =>
    ∃ k, now.length = (encodeAll (qs.take k)).length ∧ CutsMatch (qs.drop k) b bs

theorem cutsMatch_silent (now : Bytes) (later : List Bytes)
    (h : (Bursts.mk now later).bytes.length = 0) : CutsMatch [] now later := by
  induction later generalizing now with
  | nil => trivial
  | cons b bs ih =>
    simp only [Bursts.bytes, List.flatten_cons, List.length_append] at h
    refine ⟨0, ?_, ih b ?_⟩
    · simp only [List.take_zero, encodeAll_nil, List.length_nil]; omega
    · simp only [Bursts.bytes, List.length_append]; omega

theorem CutsMatch.cons {p : Packet} {qs : List Packet} {now rest : Bytes} {later : List Bytes}
    (h : CutsMatch qs rest later)
    (hl : now.length = (PacketCodec.encode p).length + rest.length) :
    CutsMatch (p :: qs) now later := by
  cases later with
  | nil => trivial
  | cons b bs =>
    obtain ⟨k, hk, hb⟩ := h
    refine ⟨k + 1, ?_, hb⟩
    rw [List.take_succ_cons, encodeAll_cons, List.length_append]
    omega

theorem CutsMatch.next {qs : List Packet} {now : Bytes} {later : List Bytes}
    (h : CutsMatch qs (Bursts.next ⟨now, later⟩).now (Bursts.next ⟨now, later⟩).later)
    (hn : now.length = 0) : CutsMatch qs now later := by
  cases later with
  | nil => trivial
  | cons b bs => exact ⟨0, by rw [hn, List.take_zero, encodeAll_nil, List.length_nil], h⟩

theorem Bursts.bytes_next_length (s : Bursts) :
    s.bytes.length = s.now.length + s.next.bytes.length := by
  obtain ⟨now, later⟩ := s
  cases later <;> simp [Bursts.bytes, Bursts.next]

/-- A decoded server frame cost at least its own frame in bytes, so the loop can only
return as many bytes of frames as arrived, and then it lost none at any timeout. -/
theorem receiveLoop_lengths (os : Platform) (n : Nat) (s : Bursts)
    (hq : ∀ q ∈ receiveLoop (Bursts.readExact os) n s, IsServerFrame q) :
    (encodeAll (receiveLoop (Bursts.readExact os) n s)).length ≤ s.bytes.length ∧
      ((encodeAll (receiveLoop (Bursts.readExact os) n s)).length = s.bytes.length →
        CutsMatch (receiveLoop (Bursts.readExact os) n s) s.now s.later) := by
  induction n generalizing s with
  | zero => exact ⟨by simp [receiveLoop, encodeAll], fun h => cutsMatch_silent _ _ h.symm⟩
  | succ n ih =>
    rcases readPacket_cases os s with ⟨len, hlen, h⟩ | h
    · have hbytes : s.bytes.length =
          4 + len + (Bursts.mk (s.now.drop (4 + len)) s.later).bytes.length := by
        simp only [Bursts.bytes, List.length_append, List.length_drop]; omega
      cases hp : Packet.deserialize ((s.now.drop 4).take len) with
      | ok p =>
        rw [hp] at h
        rw [receiveLoop_packet os n h] at hq ⊢
        have hi := ih ⟨s.now.drop (4 + len), s.later⟩ (fun q hm => hq q (by simp [hm]))
        have hframe := encode_length_le_of_deserialize hp (hq p List.mem_cons_self)
        have ht : ((s.now.drop 4).take len).length ≤ len := List.length_take_le _ _
        rw [encodeAll_cons, List.length_append]
        refine ⟨by omega, fun he => (hi.2 (by omega)).cons ?_⟩
        rw [List.length_drop]
        omega
      | error e =>
        rw [hp] at h
        have hlt : (encodeAll (receiveLoop (Bursts.readExact os) (n + 1) s)).length <
            s.bytes.length := by
          by_cases hk : e.kind = .wouldBlock ∨ e.kind = .timedOut
          · have hl : receiveLoop (Bursts.readExact os) (n + 1) s =
                receiveLoop (Bursts.readExact os) n ⟨s.now.drop (4 + len), s.later⟩ := by
              rw [receiveLoop, h]
              simp only [if_pos hk]
            rw [hl] at hq ⊢
            have hi := (ih _ hq).1
            omega
          · have hl : receiveLoop (Bursts.readExact os) (n + 1) s = [] := by
              rw [receiveLoop, h]
              simp only [if_neg hk]
            rw [hl, encodeAll_nil, List.length_nil]
            omega
        exact ⟨by omega, fun he => by omega⟩
    · rw [receiveLoop_timeout os n h] at hq ⊢
      have hb := s.bytes_next_length
      have hi := ih s.next hq
      exact ⟨by omega, fun he => (hi.2 (by omega)).next (by omega)⟩

theorem CutsMatch.aligned {ps : List Packet} {now : Bytes} {later : List Bytes}
    (h : CutsMatch ps now later) (hall : (Bursts.mk now later).bytes = encodeAll ps) :
    Aligned ps now later := by
  induction later generalizing ps now with
  | nil =>
    simp only [Bursts.bytes, List.flatten_nil, List.append_nil] at hall
    exact hall ▸ List.prefix_refl _
  | cons b bs ih =>
    obtain ⟨k, hk, hb⟩ := h
    rw [encodeAll_split ps k] at hall
    obtain ⟨hnow, hrest⟩ := List.append_inj hall hk
    exact ⟨k, hnow, ih hb (by simpa [Bursts.bytes] using hrest)⟩

/-- If no timeout strikes inside a frame, the receive loop neither loses nor invents a
packet. For the frames a server sends this is also necessary: a complete stream comes
out in order only if every timeout fell between two frames. -/
theorem receive_in_order_iff (os : Platform) (ps : List Packet) (evs : List SocketEvent)
    (hps : Sendable ps) (harr : arrived evs <+: encodeAll ps) :
    (TimeoutsBetweenFrames ps evs → InOrder os ps evs) ∧
      ((∀ p ∈ ps, IsServerFrame p) → arrived evs = encodeAll ps →
        (InOrder os ps evs ↔ TimeoutsBetweenFrames ps evs)) := by
  have hsuff : TimeoutsBetweenFrames ps evs → InOrder os ps evs := by
    intro hcut
    have ha := (aligned_iff_timeoutsBetween harr).mpr hcut
    refine ⟨fun n => ?_, fun hall => ⟨ps.length + (bursts evs).later.length, fun n hn => ?_⟩⟩
    · rw [receiveLoop_bursts]
      exact receiveLoop_prefix os n hps ha
    · rw [receiveLoop_bursts]
      exact receiveLoop_complete os n hps ha (by rw [← hall, ← bursts_bytes]) hn
  refine ⟨hsuff, fun hframes hall => ⟨fun hin => ?_, hsuff⟩⟩
  obtain ⟨N, hN⟩ := hin.2 hall
  have hout := hN N (Nat.le_refl N)
  rw [receiveLoop_bursts] at hout
  have hbytes : (bursts evs).bytes = encodeAll ps := by rw [bursts_bytes, hall]
  have hl := receiveLoop_lengths os N (bursts evs) (by rw [hout]; exact hframes)
  rw [hout] at hl
  have hcuts := hl.2 (by rw [← hbytes])
  exact (aligned_iff_timeoutsBetween harr).mp (hcuts.aligned hbytes)

/-- A frame whose data happens to spell another frame, as the output of a program may. -/
def nestedFrame : Packet :=
  .serverFrame 1 (PacketCodec.encode (.serverFrame 2 [88] false)) false

theorem receive_in_order_timeout_after_frame :
    (TimeoutsBetweenFrames [nestedFrame]
        [.arrive (encodeAll [nestedFrame]), .timeout] →
      InOrder .unix [nestedFrame] [.arrive (encodeAll [nestedFrame]), .timeout]) ∧
    ((∀ p ∈ [nestedFrame], IsServerFrame p) →
      arrived [.arrive (encodeAll [nestedFrame]), .timeout] = encodeAll [nestedFrame] →
      (InOrder .unix [nestedFrame] [.arrive (encodeAll [nestedFrame]), .timeout] ↔
        TimeoutsBetweenFrames [nestedFrame]
          [.arrive (encodeAll [nestedFrame]), .timeout])) :=
  receive_in_order_iff .unix [nestedFrame] [.arrive (encodeAll [nestedFrame]), .timeout]
    (by
      intro p hp
      obtain rfl := List.mem_singleton.mp hp
      exact ⟨show (PacketCodec.encode (.serverFrame 2 [88] false)).length < 2 ^ 32 by
        decide +kernel, by decide +kernel⟩)
    (by simp [arrived])

/-- The timeout strikes after the header of `nestedFrame`: the header is lost, and the
loop returns the packet spelt by the data, which was never sent. -/
theorem receive_invents_packet :
    arrived [.arrive ((encodeAll [nestedFrame]).take 18), .timeout,
        .arrive ((encodeAll [nestedFrame]).drop 18)] = encodeAll [nestedFrame] ∧
      receiveLoop (readExact .unix) 2
          [.arrive ((encodeAll [nestedFrame]).take 18), .timeout,
            .arrive ((encodeAll [nestedFrame]).drop 18)] = [.serverFrame 2 [88] false] ∧
      ¬ InOrder .unix [nestedFrame]
          [.arrive ((encodeAll [nestedFrame]).take 18), .timeout,
            .arrive ((encodeAll [nestedFrame]).drop 18)] := by
  have hrun : receiveLoop (readExact .unix) 2
      [.arrive ((encodeAll [nestedFrame]).take 18), .timeout,
        .arrive ((encodeAll [nestedFrame]).drop 18)] = [.serverFrame 2 [88] false] := by
    decide +kernel
  refine ⟨by simp [arrived], hrun, fun hin => ?_⟩
  have hpre := hin.1 2
  rw [hrun, List.cons_prefix_cons] at hpre
  exact absurd hpre.1 (by decide +kernel)

end MoshTcp.Client
