import MoshTcp.NativeLink
import MoshTcp.LinkOutput
import MoshTcp.ServerLimits

/-! From the shell to the terminal of the C or the C++ client: what the client prints is what the
server put into its frames, in order, as long as the frames fit the client's buffers. -/

set_option autoImplicit false

namespace MoshTcp.NativeLink
open ByteOrder Protocol Client Native Runs BitStreams Deflate

/-- What flate2 writes: a member with a deflate stream of the data. -/
def WritesMembers (gz : Gzip) : Prop :=
  ∀ data compressed, gz.encode data = some compressed →
    ∃ (header : Native.Header) (after : Bytes) (size : Nat),
      compressed = header.bytes ++ after ∧ 8 ≤ after.length ∧
        Nonempty (Stream (bitsOf (after.take (after.length - 8))) size data)

theorem decompress_member {gz : Gzip} (hgz : WritesMembers gz) {data compressed : Bytes}
    (h : gz.encode data = some compressed) {outlen : Nat} (hlen : data.length ≤ outlen) :
    unwrapFrame linkedPuff outlen compressed = .ok data := by
  obtain ⟨header, after, size, rfl, htail, hstream⟩ := hgz data compressed h
  exact (unwrapFrame_ok_iff _ header after data).2 ⟨htail, hlen, size, hstream⟩

section Frame
variable (seq : UInt64) {data : Bytes} (compressed : Bool)

theorem statedLength_frame (h : data.length < 2 ^ 32) :
    statedLength (Packet.serverFrame seq data compressed).serialize = data.length := by
  have hdrop : ((Packet.serverFrame seq data compressed).serialize).drop 10 =
      beBytes 4 data.length ++ data := by
    simp only [Packet.serialize, List.append_assoc]
    rw [← List.append_assoc, ← List.append_assoc]
    refine List.drop_left' ?_
    simp
  rw [statedLength, hdrop, List.take_left' (beBytes_length 4 _), beNat_beBytes_word h]

/-- The clients see the frame that was sent. -/
theorem views_frame (hlen : 14 + data.length ≤ 65532) :
    ViewsAgree (Packet.serverFrame seq data compressed).serialize ∧
      rustView (Packet.deserialize (Packet.serverFrame seq data compressed).serialize) =
        .frame compressed data := by
  have hfits : (Packet.serverFrame seq data compressed).Fits := show data.length < 2 ^ 32 by omega
  have hback := deserialize_serialize (.serverFrame seq data compressed) hfits []
  have hstated := statedLength_frame seq compressed hfits
  have hsize : (Packet.serverFrame seq data compressed).serialize.length = 14 + data.length := by
    simp [Packet.serialize]
    omega
  rw [List.append_nil] at hback
  refine ⟨?_, by rw [hback]; rfl⟩
  obtain ⟨src, hsrc⟩ : ∃ src, (Packet.serverFrame seq data compressed).serialize = 5 :: src :=
    ⟨_, rfl⟩
  rw [hsrc] at hstated hsize ⊢
  rw [List.length_cons] at hsize
  refine viewsAgree_header (by omega) ?_ (by omega)
  rw [List.length_cons]
  omega

end Frame

theorem C.process_frame {mem : Memory} (hmem : (mem.malloc Native.decompressBufferSize).isSome)
    {payload data out : Bytes} {compressed : Bool}
    (hview : processPacket payload (UInt32.ofNat payload.length) = .frame compressed data)
    (hout : (if compressed then (C.decompressFrame linkedPuff data).toOption else some data) =
      some out) : C.process mem payload = some out := by
  rw [C.process, hview]
  cases compressed with
  | true =>
    simp only [processPacketOutput, hmem, if_true] at hout ⊢
    rw [hout, Option.getD_some]
  | false =>
    obtain rfl : data = out := Option.some.inj hout
    rfl

theorem Cpp.process_frame {payload data out : Bytes} {compressed : Bool}
    (hview : (deserializePacket payload).view = .frame compressed data)
    (hout : (if compressed then (Cpp.decompressFrame linkedPuff data).toOption else some data) =
      some out) : Cpp.process payload = some out := by
  rw [Cpp.process]
  cases hpacket : deserializePacket payload with
  | nullopt =>
    rw [hpacket] at hview
    cases hview
  | outOfBounds =>
    rw [hpacket] at hview
    cases hview
  | packet p =>
    rw [hpacket] at hview
    cases p with
    | serverFrame seq data' compressed' =>
      obtain ⟨rfl, rfl⟩ := FrameView.frame.inj hview
      cases compressed' with
      | true =>
        have hsome : (Cpp.decompressFrame linkedPuff data').toOption = some out := hout
        simp only [Cpp.handleServerPacket, if_true, hsome, Option.getD_some]
      | false =>
        obtain rfl : data' = out := Option.some.inj hout
        rfl
    | _ => cases hview

theorem process_framePacket {ρ τ ε : Type} {cfg : Server.Config ρ τ ε}
    (hgz : WritesMembers cfg.gzip) (kind : Kind) (host : Endian) {mem : Memory}
    (hmem : ∀ n, (mem.malloc n).isSome) (seq : UInt64) {raw : Bytes}
    (hfit : Server.WithinClientBuffers cfg.gzip raw) :
    (kind.calls host mem).process (Server.framePacket cfg seq raw).serialize = some raw := by
  obtain ⟨hsize, hraw⟩ := hfit
  have hbuffer : bufferSize = 65536 := rfl
  have hlen : 14 + (compressData cfg.gzip raw).1.length ≤ 65532 := by omega
  obtain ⟨hagree, hview⟩ := views_frame seq (compressData cfg.gzip raw).2 hlen
  have hout : (if (compressData cfg.gzip raw).2 then
      (unwrapFrame linkedPuff (256 * 1024) (compressData cfg.gzip raw).1).toOption
      else some (compressData cfg.gzip raw).1) = some raw := by
    rcases compressData_cases cfg.gzip raw with h | ⟨z, hz, -, h⟩
    · rw [h]
      rfl
    · have hplain : unwrapFrame linkedPuff (256 * 1024) z = .ok raw := decompress_member hgz hz hraw
      rw [h, if_pos rfl]
      exact congrArg Except.toOption hplain
  cases kind with
  | c => exact C.process_frame (hmem _) (hagree.c_rust.trans hview) hout
  | cpp => exact Cpp.process_frame (hagree.cpp_rust.trans hview) hout

/-- Whole frames and a part of one are all that a prefix of small frames can be read as. -/
theorem belowWrap_of_frames {payloads : List Bytes} (hsmall : ∀ p ∈ payloads, p.length ≤ 65532)
    {bs : Bytes} (hbs : bs.length ≤ bufferSize) (hpre : bs <+: payloads.flatMap frame) :
    LengthsBelowWrap bs := by
  have hsize : bufferSize = 65536 := rfl
  intro qs rest heq h4
  induction qs generalizing payloads bs with
  | nil =>
    obtain rfl : bs = rest := heq
    cases payloads with
    | nil =>
      have hnil : bs = [] := List.prefix_nil.1 hpre
      rw [hnil] at h4
      exact absurd h4 (by decide)
    | cons p ps =>
      have hp := hsmall p (by simp)
      obtain ⟨more, hmore⟩ := hpre
      have hword := frame_word (show p.length < 2 ^ 32 by omega) (ps.flatMap frame)
      rw [← List.flatMap_cons, ← hmore, List.take_append_of_le_length h4] at hword
      omega
  | cons q qs ih =>
    rw [List.flatMap_cons, List.append_assoc] at heq
    have hlen := congrArg List.length heq
    rw [List.length_append, frame_length] at hlen
    cases payloads with
    | nil =>
      have hnil : bs = [] := List.prefix_nil.1 hpre
      rw [hnil, List.length_nil] at hlen
      omega
    | cons p ps =>
      have hp := hsmall p (by simp)
      rw [heq, List.flatMap_cons] at hpre
      have hsame : q.length = p.length := by
        have hq := frame_word (show q.length < 2 ^ 32 by omega) (qs.flatMap frame ++ rest)
        have hp' := frame_word (show p.length < 2 ^ 32 by omega) (ps.flatMap frame)
        obtain ⟨more, hmore⟩ := hpre
        rw [← hmore, List.take_append_of_le_length
          (by rw [List.length_append, frame_length]; omega)] at hp'
        omega
      obtain ⟨more, hmore⟩ := hpre
      rw [List.append_assoc] at hmore
      have hrest := (List.append_inj hmore (by rw [frame_length, frame_length, hsame])).2
      refine ih (fun r hr => hsmall r (by simp [hr])) ?_ ⟨more, hrest⟩ rfl
      omega

theorem pass_handedOn {r r' : Receiver} {data : Bytes} (h : r.pass data = some r') :
    r.handedOn <+: r'.handedOn := by
  unfold Receiver.pass at h
  dsimp only at h
  split at h
  · cases h
  · split at h
    · obtain rfl := Option.some.inj h
      exact List.prefix_append _ _
    · obtain rfl := Option.some.inj h
      exact List.prefix_append _ _

/-- A read of the stream hands on the frames that it completes, and nothing else. -/
theorem payloads_of_frames {payloads : List Bytes} (hsmall : ∀ p ∈ payloads, p.length ≤ 65532)
    {received data : Bytes} {r : Receiver} (h : Reassembled payloads received r)
    (hdata : data.length ≤ r.free) (hpre : received ++ data <+: payloads.flatMap frame) :
    ∃ r', r.payloads data = some (r', r'.handedOn.drop r.handedOn.length) ∧
      Reassembled payloads (received ++ data) r' ∧ r.handedOn <+: r'.handedOn := by
  obtain ⟨r', hpass, hr'⟩ := pass_reassembles hsmall h hdata hpre
  refine ⟨r', ?_, hr', pass_handedOn hpass⟩
  have hinside : r.inside data = true := by
    obtain ⟨k, -, hreceived, -⟩ := h.split
    obtain ⟨hlen, hbuf, hheld⟩ := Receiver.read_behind h.sized h.fits hdata
    have hdue : r.held ++ data <+: (payloads.drop k).flatMap frame := by
      rw [hreceived, ← List.take_append_drop k payloads, List.flatMap_append,
        List.take_append_drop, List.append_assoc, List.prefix_append_right_inj] at hpre
      exact hpre
    have hfits := h.fits
    unfold Receiver.free at hdata
    have hle : (r.netBufLen + UInt64.ofNat data.length).toNat ≤ bufferSize := by omega
    have hpending := pending_length hbuf hle 0
    have hsane := belowWrap_of_frames (fun p hp => hsmall p (List.mem_of_mem_drop hp))
      (by rw [← hheld, hpending]; omega) hdue
    rw [← hheld] at hsane
    have hall := (extractLoop_sane hbuf hle (bufferSize + 1) 0 (Nat.zero_le _) hsane).1
    simp only [Receiver.inside, List.all_eq_true, decide_eq_true_eq]
    exact hall
  simp only [Receiver.payloads, hpass, hinside, if_true]

/-- With the stream cut into `payloads`, of which the client makes `outs`, it has printed those of
the frames that are complete. -/
structure Shows (payloads outs : List Bytes) (l : Loop) : Prop where
  reassembled : Reassembled payloads l.received l.receiver
  received : l.received <+: payloads.flatMap frame
  printed : l.printed = (outs.take l.receiver.handedOn.length).flatten
  defined : l.undefined = false

theorem reassembled_handedOn {payloads : List Bytes} {received : Bytes} {r : Receiver}
    (h : Reassembled payloads received r) :
    r.handedOn = payloads.take r.handedOn.length ∧ r.handedOn.length ≤ payloads.length := by
  obtain ⟨k, hhanded, -, -⟩ := h.split
  rw [hhanded, List.length_take]
  refine ⟨?_, Nat.min_le_right _ _⟩
  rw [← List.take_eq_take_min]

theorem reassembled_grow {payloads : List Bytes} {received : Bytes} {r : Receiver}
    (h : Reassembled payloads received r) (more : List Bytes) :
    Reassembled (payloads ++ more) received r := by
  obtain ⟨k, hhanded, hreceived, hinc⟩ := h.split
  refine ⟨h.sized, h.fits, min k payloads.length, ?_⟩
  have htake : (payloads ++ more).take (min k payloads.length) = payloads.take k := by
    rw [List.take_append_of_le_length (Nat.min_le_right _ _), ← List.take_eq_take_min]
  have hdrop : (payloads ++ more).drop (min k payloads.length) = payloads.drop k ++ more := by
    rw [List.drop_append_of_le_length (Nat.min_le_right _ _)]
    by_cases hk : k ≤ payloads.length
    · rw [Nat.min_eq_left hk]
    · rw [Nat.min_eq_right (by omega), List.drop_length, List.drop_of_length_le (by omega)]
  rw [htake, hdrop]
  refine ⟨hhanded, hreceived, ?_⟩
  cases hdue : payloads.drop k with
  | cons payload rest =>
    rw [hdue] at hinc
    exact hinc
  | nil =>
    rw [hdue] at hinc
    have hheld : r.held = [] := hinc
    rw [hheld, List.nil_append]
    cases more with
    | nil => rfl
    | cons payload more =>
      refine ⟨List.nil_prefix, ?_⟩
      rw [frame_length, List.length_nil]
      omega

theorem Shows.grow {payloads outs : List Bytes} {l : Loop} (h : Shows payloads outs l)
    (hlen : outs.length = payloads.length) (more moreOuts : List Bytes) :
    Shows (payloads ++ more) (outs ++ moreOuts) l := by
  refine ⟨reassembled_grow h.reassembled more, ?_, ?_, h.defined⟩
  · rw [List.flatMap_append]
    exact h.received.trans (List.prefix_append _ _)
  · have hle := (reassembled_handedOn h.reassembled).2
    rw [List.take_append_of_le_length (by omega)]
    exact h.printed

theorem mapM_of_map {f : Bytes → Option Bytes} {xs ys : List Bytes}
    (h : xs.map f = ys.map some) : xs.mapM f = some ys := by
  induction xs generalizing ys with
  | nil =>
    cases ys with
    | nil => rfl
    | cons y ys => cases h
  | cons x xs ih =>
    cases ys with
    | nil => cases h
    | cons y ys =>
      rw [List.map_cons, List.map_cons, List.cons.injEq] at h
      rw [List.mapM_cons, h.1, ih h.2]
      rfl

theorem readSocket_shows {calls : Calls} {payloads outs : List Bytes} {l : Loop}
    (hsmall : ∀ p ∈ payloads, p.length ≤ 65532)
    (hprocess : payloads.map calls.process = outs.map some) (h : Shows payloads outs l)
    (read : Option SocketRead) :
    Shows payloads outs (l.readSocket calls read
      ((payloads.flatMap frame).drop l.received.length)).1 := by
  unfold Loop.readSocket
  split
  · rename_i n
    dsimp only
    split
    · exact h
    obtain ⟨data, hdata⟩ : ∃ data, data = ((payloads.flatMap frame).drop l.received.length).take
      (min n l.receiver.free) := ⟨_, rfl⟩
    rw [← hdata]
    have hfree : data.length ≤ l.receiver.free := by
      rw [hdata, List.length_take]
      omega
    have hpre : l.received ++ data <+: payloads.flatMap frame := by
      obtain ⟨more, hmore⟩ := h.received
      rw [hdata, ← hmore, List.drop_left]
      exact (List.prefix_append_right_inj _).2 (List.take_prefix _ _)
    obtain ⟨r', hpayloads, hr', hgrown⟩ := payloads_of_frames hsmall h.reassembled hfree hpre
    obtain ⟨hbefore, -⟩ := reassembled_handedOn h.reassembled
    obtain ⟨hafter, -⟩ := reassembled_handedOn hr'
    have hle := hgrown.length_le
    have hnew : (r'.handedOn.drop l.receiver.handedOn.length).mapM calls.process =
        some ((outs.take r'.handedOn.length).drop l.receiver.handedOn.length) := by
      apply mapM_of_map
      rw [hafter, List.map_drop, List.map_take, hprocess, ← List.map_take, ← List.map_drop,
        ← hafter]
    simp only [hpayloads, hnew]
    refine ⟨hr', hpre, ?_, h.defined⟩
    have htake : outs.take l.receiver.handedOn.length =
        (outs.take r'.handedOn.length).take l.receiver.handedOn.length := by
      rw [List.take_take, Nat.min_eq_left hle]
    rw [h.printed, ← List.flatten_append, htake, List.take_append_drop]
  · exact h

/-- The socket is read at one place only. -/
structure SameOutput (l l' : Loop) : Prop where
  receiver : l'.receiver = l.receiver
  received : l'.received = l.received
  printed : l'.printed = l.printed
  undefined : l'.undefined = l.undefined

theorem Shows.congr {payloads outs : List Bytes} {l l' : Loop} (h : Shows payloads outs l)
    (hsame : SameOutput l l') : Shows payloads outs l' := by
  refine ⟨?_, ?_, ?_, ?_⟩
  · rw [hsame.received, hsame.receiver]
    exact h.reassembled
  · rw [hsame.received]
    exact h.received
  · rw [hsame.printed, hsame.receiver]
    exact h.printed
  · rw [hsame.undefined]
    exact h.defined

theorem resize_sameOutput (calls : Calls) (l : Loop) (size : Option (UInt16 × UInt16))
    (results : List WriteResult) : SameOutput l (l.resize calls size results) := by
  unfold Loop.resize
  split
  · rcases size with _ | ⟨rows, cols⟩ <;> exact ⟨rfl, rfl, rfl, rfl⟩
  · exact ⟨rfl, rfl, rfl, rfl⟩

theorem readStdin_sameOutput (calls : Calls) (l : Loop) (read : Option ReadResult)
    (results : List WriteResult) : SameOutput l (l.readStdin calls read results).1 := by
  unfold Loop.readStdin
  split
  · split <;> exact ⟨rfl, rfl, rfl, rfl⟩
  · exact ⟨rfl, rfl, rfl, rfl⟩

theorem pass_shows {calls : Calls} {payloads outs : List Bytes} {l : Loop}
    (hsmall : ∀ p ∈ payloads, p.length ≤ 65532)
    (hprocess : payloads.map calls.process = outs.map some) (h : Shows payloads outs l)
    (p : Pass) :
    Shows payloads outs (l.pass calls p ((payloads.flatMap frame).drop l.received.length)) := by
  unfold Loop.pass
  split
  · exact h
  split
  · have hsame := resize_sameOutput calls l p.size p.resizeWrites
    rw [← hsame.received]
    replace h := h.congr hsame
    generalize l.resize calls p.size p.resizeWrites = l at h
    unfold Loop.polled
    split
    · exact h
    · exact h.congr ⟨rfl, rfl, rfl, rfl⟩
    · rename_i stdin socket hangup _
      have hsame := readStdin_sameOutput calls l stdin p.inputWrites
      have hinput := h.congr hsame
      dsimp only
      split
      · rw [← hsame.received]
        exact (readSocket_shows hsmall hprocess hinput socket).congr ⟨rfl, rfl, rfl, rfl⟩
      · exact hinput.congr ⟨rfl, rfl, rfl, rfl⟩
  · exact h.congr ⟨rfl, rfl, rfl, rfl⟩

/-! ### Whole runs -/

section Link
variable {ρ τ ε : Type} {setup : Setup ρ τ ε} {s : State ρ τ}

def payloads (s : State ρ τ) : List Bytes :=
  s.server.session.sent.map fun f => f.packet.serialize

def raws (s : State ρ τ) : List Bytes := s.server.session.sent.map Server.Sent.raw

theorem downlink_eq (s : State ρ τ) : s.downlink = (payloads s).flatMap frame := by
  rw [State.downlink, payloads, encodeAll, List.flatMap_map, List.flatMap_map]
  rfl

def Fitting (setup : Setup ρ τ ε) (s : State ρ τ) : Prop :=
  ∀ f ∈ s.server.session.sent, Server.WithinClientBuffers setup.server.gzip f.raw

/-- The bound on the frames is asked for once, of those sent up to the last state. -/
structure Displayed (setup : Setup ρ τ ε) (s : State ρ τ) : Prop where
  numbered : Server.Numbered setup.server s.server.session
  shows : Fitting setup s → Shows (payloads s) (raws s) s.client

theorem frame_of_numbered {cfg : Server.Config ρ τ ε} {session : Server.Session ρ τ}
    (h : Server.Numbered cfg session) {f : Server.Sent} (hf : f ∈ session.sent) :
    ∃ seq, f.packet = Server.framePacket cfg seq f.raw := by
  obtain ⟨i, hi⟩ := List.getElem?_of_mem hf
  exact ⟨_, h.packets i f hi⟩

theorem small_payloads (h : Server.Numbered setup.server s.server.session)
    (hfit : Fitting setup s) : ∀ p ∈ payloads s, p.length ≤ 65532 := by
  intro p hp
  obtain ⟨f, hf, rfl⟩ := List.mem_map.1 hp
  obtain ⟨seq, hpacket⟩ := frame_of_numbered h hf
  have hlen := (hfit f hf).1
  rw [← Server.encode_framePacket_length seq f.raw, encode_length] at hlen
  have hbuffer : bufferSize = 65536 := rfl
  rw [hpacket]
  omega

theorem process_payloads (hgz : WritesMembers setup.server.gzip)
    (h : Server.Numbered setup.server s.server.session) (hfit : Fitting setup s) {mem : Memory}
    (hmem : ∀ n, (mem.malloc n).isSome) :
    (payloads s).map (setup.calls mem).process = (raws s).map some := by
  rw [payloads, raws, List.map_map, List.map_map]
  refine List.map_congr_left fun f hf => ?_
  obtain ⟨seq, hpacket⟩ := frame_of_numbered h hf
  simp only [Function.comp, hpacket]
  exact process_framePacket hgz setup.kind setup.host hmem seq (hfit f hf)

theorem socketStep_session (cfg : Server.Config ρ τ ε) (c : Server.Connection ρ τ)
    (e : Server.SocketEvent ε) : (Server.socketStep cfg c e).session = c.session ∨
      ∃ f, (Server.socketStep cfg c e).session = Server.step cfg c.session f := by
  cases e with
  | arrive segment =>
    rw [Server.socketStep]
    split <;> exact .inl rfl
  | hangup => exact .inl rfl
  | server e he => exact .inr ⟨e, rfl⟩
  | next =>
    rw [Server.socketStep, Server.nextPacket]
    split
    · exact .inl rfl
    · split
      · rename_i packet _ _
        exact .inr ⟨.clientPacket packet, rfl⟩
      · exact .inr ⟨.clientEnd, rfl⟩
      · split
        · exact .inr ⟨.clientEnd, rfl⟩
        · exact .inl rfl

theorem Displayed.server (h : Displayed setup s) {server : Server.Connection ρ τ}
    (hstep : server.session = s.server.session ∨
      ∃ f, server.session = Server.step setup.server s.server.session f) :
    Displayed setup { s with server := server } := by
  have hgrown : Server.Numbered setup.server server.session ∧
      ∃ more, server.session.sent = s.server.session.sent ++ more := by
    cases hstep with
    | inl hsame =>
      rw [hsame]
      exact ⟨h.numbered, [], (List.append_nil _).symm⟩
    | inr hstep =>
      obtain ⟨f, hstep⟩ := hstep
      rw [hstep]
      refine ⟨Server.step_numbered h.numbered f, ?_⟩
      cases Server.step_sent setup.server s.server.session f with
      | inl hsent => exact ⟨[], by rw [hsent, List.append_nil]⟩
      | inr hsent =>
        obtain ⟨frame, -, hsent⟩ := hsent
        exact ⟨[frame], hsent⟩
  obtain ⟨hnumbered, more, hmore⟩ := hgrown
  refine ⟨hnumbered, fun hfit => ?_⟩
  have hfewer : Fitting setup s := fun f hf =>
    hfit f (by rw [hmore]; exact List.mem_append_left _ hf)
  have hlen : (raws s).length = (payloads s).length := by rw [raws, payloads]; simp
  have hshows := (h.shows hfewer).grow hlen (more.map fun f => f.packet.serialize)
    (more.map Server.Sent.raw)
  rw [payloads, raws, hmore, List.map_append, List.map_append]
  exact hshows

theorem step_displayed (hgz : WritesMembers setup.server.gzip) (h : Displayed setup s)
    (e : Event ε) (he : e.Memory) : Displayed setup (step setup s e) := by
  cases e with
  | signal sig =>
    refine ⟨h.numbered, fun hfit => (h.shows hfit).congr ?_⟩
    cases sig <;> exact ⟨rfl, rfl, rfl, rfl⟩
  | pass p =>
    refine ⟨h.numbered, fun hfit => ?_⟩
    have hshows := pass_shows (small_payloads h.numbered hfit)
      (process_payloads hgz h.numbered hfit he) (h.shows hfit) p
    rw [← downlink_eq] at hshows
    exact hshows
  | killed => exact ⟨h.numbered, fun hfit => (h.shows hfit).congr ⟨rfl, rfl, rfl, rfl⟩⟩
  | toServer n => exact h.server (socketStep_session _ _ _)
  | hangup => exact h.server (socketStep_session _ _ _)
  | next => exact h.server (socketStep_session _ _ _)
  | server e he => exact h.server (socketStep_session _ _ _)
  | sendTaskDone => exact h.server (.inr ⟨.sendTaskDone, rfl⟩)

theorem start_displayed (setup : Setup ρ τ ε) (results : List WriteResult) :
    Displayed setup (.start setup results) := by
  refine ⟨Server.session_numbered setup.server [], fun _ => ?_⟩
  exact ⟨start_reassembled setup.netBuf_length [], List.nil_prefix, rfl, rfl⟩

theorem link_displayed (hgz : WritesMembers setup.server.gzip) (results : List WriteResult)
    {es : List (Event ε)} (hes : ∀ e ∈ es, e.Memory) : Displayed setup (link setup results es) :=
  run_invariant (P := fun _ e => Event.Memory e) (start_displayed setup results)
    (fun _ e hs he => step_displayed hgz hs e he) (along_of_forall fun _ e he => hes e he)

/-- The steps of a run in which the server sends all that the shell writes. -/
def Uncongested (s : State ρ τ) : Event ε → Prop
  | .server e _ => Server.Uncongested s.server.session e
  | _ => True

theorem step_tracks (h : Link.Tracks setup.server s.server.session) (e : Event ε)
    (he : Uncongested s e) : Link.Tracks setup.server (step setup s e).server.session := by
  cases e with
  | toServer n =>
    simp only [step, Server.socketStep]
    split <;> exact h
  | next => exact (Link.nextPacket_tracks h).1
  | server e hside => exact (h.snoc e he).1
  | sendTaskDone => exact (h.snoc .sendTaskDone trivial).1
  | _ => exact h

/-- What the client has printed are the first of the server's frames, in order, and all of them
when it has read all. When the server had to drop nothing they are what the shell wrote. -/
theorem screen_shows_frames (setup : Setup ρ τ ε) (hgz : WritesMembers setup.server.gzip)
    (results : List WriteResult) (es : List (Event ε)) (hes : ∀ e ∈ es, e.Memory)
    (hfit : Fitting setup (link setup results es)) :
    (link setup results es).client.undefined = false ∧
      (∃ k, (link setup results es).client.printed =
        ((raws (link setup results es)).take k).flatten) ∧
      ((link setup results es).unread = [] →
        (link setup results es).client.printed = (raws (link setup results es)).flatten) ∧
      (Along (step setup) Uncongested (.start setup results) es →
        (link setup results es).client.printed <+:
            (link setup results es).server.session.ptyOutput ∧
          ((link setup results es).unread = [] →
            (link setup results es).server.session.ptyBuffer = [] →
            (link setup results es).client.printed =
              (link setup results es).server.session.ptyOutput)) := by
  have h := link_displayed hgz results hes
  have htracks : Along (step setup) Uncongested (.start setup results) es →
      Link.Tracks setup.server (link setup results es).server.session :=
    run_invariant (I := fun s : State ρ τ => Link.Tracks setup.server s.server.session)
      ⟨[], rfl, trivial⟩ fun _ e hs he => step_tracks hs e he
  generalize link setup results es = s at h htracks hfit
  have hshows := h.shows hfit
  have hall : s.unread = [] → s.client.printed = (raws s).flatten := by
    intro hunread
    rw [State.unread, List.drop_eq_nil_iff, downlink_eq] at hunread
    have hreceived := hshows.received.eq_of_length_le hunread
    obtain ⟨k, hhanded, hsplit, hinc⟩ := hshows.reassembled.split
    obtain ⟨htaken, -⟩ := incomplete_of_all hinc (hsplit.symm.trans hreceived)
    have hlen : (raws s).length = (payloads s).length := by rw [raws, payloads]; simp
    rw [hshows.printed, hhanded, htaken, ← hlen, List.take_length]
  refine ⟨hshows.defined, ⟨_, hshows.printed⟩, hall, fun hsmooth => ?_⟩
  obtain ⟨fs, hsession, halong⟩ := htracks hsmooth
  have hcontent := (Server.session_delivering halong).content
  rw [← hsession] at hcontent
  have hraws : (raws s).flatten ++ s.server.session.ptyBuffer = s.server.session.ptyOutput :=
    hcontent
  constructor
  · rw [hshows.printed, ← hraws]
    refine List.IsPrefix.trans ?_ (List.prefix_append _ _)
    obtain ⟨more, hmore⟩ := List.take_prefix s.client.receiver.handedOn.length (raws s)
    conv_rhs => rw [← hmore, List.flatten_append]
    exact List.prefix_append _ _
  · intro hunread hbuffer
    rw [hall hunread, ← hraws, hbuffer, List.append_nil]

end Link

/-! ### A compressed frame -/

theorem bitsOf_store {n : Nat} (h : n < 2 ^ 16) :
    bitsOf (Endian.little.store 2 n) = lowBits 16 n := by
  have hbytes : Endian.little.store 2 n = [UInt8.ofNat n, UInt8.ofNat (n / 256)] := by
    simp [Endian.store, beBytes]
  have hlow : (UInt8.ofNat n).toNat = n % 2 ^ 8 := by simp
  have hhigh : (UInt8.ofNat (n / 256)).toNat = n / 2 ^ 8 := by
    rw [UInt8.toNat_ofNat']
    exact Nat.mod_eq_of_lt (by omega)
  have hboth := lowBits_add 8 (n / 2 ^ 8) (Nat.mod_lt n (Nat.two_pow_pos 8))
  rw [Nat.mod_add_div] at hboth
  rw [hbytes, bitsOf_cons, bitsOf_cons, bitsOf_nil, List.append_nil, hlow, hhigh, ← hboth]

theorem storedBlock_stream {data : Bytes} (h : data.length < 2 ^ 16) :
    Nonempty (Stream (bitsOf (storedBlock data)) (8 * (storedBlock data).length) data) := by
  have hencode : encode [.stored (List.replicate 5 false) data h] = bitsOf (storedBlock data) := by
    rw [storedBlock, bitsOf_cons, bitsOf_append, bitsOf_append, bitsOf_store h,
      bitsOf_store (by omega)]
    simp only [encode, Block.encode, List.append_nil]
    rfl
  exact ⟨[.stored (List.replicate 5 false) data h], by simp, ⟨⟨by decide, by decide⟩, trivial⟩,
    hencode ▸ List.prefix_rfl, hencode ▸ length_bitsOf _, rfl⟩

/-- A byte copied from one place back, again and again. -/
theorem copyBytes_replicate (b : UInt8) (n m : Nat) :
    copyBytes 1 n (List.replicate (m + 1) b) = List.replicate (m + 1 + n) b := by
  induction n generalizing m with
  | zero => rfl
  | succ n ih =>
    have hone : repeatByte 1 (List.replicate (m + 1) b) = List.replicate (m + 1 + 1) b := by
      simp [repeatByte, List.replicate_succ' (n := m + 1)]
    rw [copyBytes, hone, ih]
    congr 1
    omega

theorem runItems_encodable :
    ∀ item ∈ [Item.literal 0x61, .copy 28 0 0 0], item.Encodable fixedCodes := by
  have hliteral : Item.Encodable fixedCodes (.literal 0x61) := ⟨8, by decide +kernel, by decide⟩
  have hcopy : Item.Encodable fixedCodes (.copy 28 0 0 0) :=
    ⟨⟨8, by decide +kernel, by decide⟩, 5, by decide +kernel, by decide⟩
  simp [hliteral, hcopy]

theorem runBlock_stream : Nonempty (Stream (bitsOf runBlock) 31 letterRun) :=
  ⟨[.fixed _ runItems_encodable], by simp, ⟨trivial, trivial⟩, by decide +kernel,
    by decide +kernel, congrArg some (copyBytes_replicate 0x61 258 0)⟩

theorem storing_writesMembers : WritesMembers storing := by
  intro data compressed h
  have htake : ∀ body : Bytes, (body ++ trailer data).take ((body ++ trailer data).length - 8) =
      body := by
    intro body
    rw [List.length_append, trailer_length, Nat.add_sub_cancel, List.take_left]
  have htail : ∀ body : Bytes, 8 ≤ (body ++ trailer data).length := by
    intro body
    rw [List.length_append, trailer_length]
    exact Nat.le_add_left _ _
  rcases storedEncode_cases h with ⟨rfl, rfl⟩ | ⟨hlen, rfl⟩
  · refine ⟨plainHeader, runBlock ++ trailer letterRun, 31, rfl, htail _, ?_⟩
    rw [htake]
    exact runBlock_stream
  · refine ⟨plainHeader, storedBlock data ++ trailer data, 8 * (storedBlock data).length, rfl,
      htail _, ?_⟩
    rw [htake]
    exact storedBlock_stream hlen

def storingSetup : Setup (UInt16 × UInt16 × Bytes) ℚ ℚ :=
  { recordingSetup with server := Server.storingServer }

def readingPass : Pass where
  mem := staleMemory
  size := none
  resizeWrites := []
  poll := .ready none (some (.upTo 100)) false
  inputWrites := []
  typed_le := by decide

/-- The shell writes a run of letters, which is sent compressed and read. -/
def outputRun : List (Event ℚ) :=
  [.server (.ptyRead letterRun) trivial, .server (.tick (1 / 50) true) trivial,
    .pass readingPass]

theorem screen_shows_frames_output_run :
    ((link storingSetup [] outputRun).server.session.sent.map Server.Sent.packet)[0]? =
        some (.serverFrame 1 (plainMember runBlock letterRun) true) ∧
      (link storingSetup [] outputRun).unread = [] ∧
      (link storingSetup [] outputRun).client.printed = letterRun := by
  have hraws : raws (link storingSetup [] outputRun) = [letterRun] := by decide +kernel
  have hmem : ∀ e ∈ outputRun, e.Memory := by
    simp [outputRun, Event.Memory, readingPass, staleMemory]
  have hdisplayed : Displayed storingSetup (link storingSetup [] outputRun) :=
    link_displayed storing_writesMembers [] hmem
  have hframe := hdisplayed.numbered.letterRun (i := 0) (by rw [← raws, hraws]; rfl)
  have hfit : Fitting storingSetup (link storingSetup [] outputRun) := by
    intro f hf
    have hraw : f.raw ∈ raws (link storingSetup [] outputRun) := List.mem_map_of_mem hf
    rw [hraws, List.mem_singleton] at hraw
    rw [hraw]
    exact Server.withinClientBuffers_of_le_cap _ (by decide +kernel)
  have hunread : (link storingSetup [] outputRun).unread = [] := by decide +kernel
  have hall := (screen_shows_frames storingSetup storing_writesMembers [] outputRun hmem
    hfit).2.2.1 hunread
  refine ⟨hframe, hunread, ?_⟩
  rw [hall, hraws, List.flatten_cons, List.flatten_nil, List.append_nil]

end MoshTcp.NativeLink
