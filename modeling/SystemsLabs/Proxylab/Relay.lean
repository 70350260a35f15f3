import Mathlib.Data.BitVec
import SystemsLabs.Proxylab.Reject
import SystemsLabs.Schemes.Buffer

/-! @lab proxylab | file:proxy.c (send_response_to_client), csapp.c (rio_writen) |
    structure:relay loop | main result:what reaches client and cache

    The relay with its counters as the machine has them: `n`, `leftover` and `*size` are of type
    `size_t`, and the response is an array of `MAX_OBJECT_SIZE` bytes. Every copy and write is kept
    in a log. `rio_readnb` delivers full blocks of `MAX_OBJECT_SIZE` bytes until the stream ends, so
    `leftover` is 0 or untouched whenever a block arrives. A failed read makes `n` the largest
    number there is, and the loop goes on with it. -/

namespace Labs.Http.Relay
open Schemes Labs.WebCache

/-- One `write`: some bytes, at least one, are taken; or it is interrupted; or it fails. -/
inductive WriteEv where
  | sent (more : ℕ)
  | eintr
  | error
  deriving DecidableEq, Repr

/-- The client has received a text, and is going to answer; after the last answer it takes every
    write as a whole. -/
structure Client where
  received : Bytes
  answers : List WriteEv
  deriving DecidableEq, Repr

/-- The loop of `rio_writen`. `false`: error. -/
def writeLoop (received : Bytes) : List WriteEv → Bytes → Bool × Client
  | answers, [] => (true, ⟨received, answers⟩)
  | [], c :: cs => (true, ⟨received ++ c :: cs, []⟩)
  | .sent more :: answers, c :: cs =>
    writeLoop (received ++ (c :: cs).take (more + 1)) answers ((c :: cs).drop (more + 1))
  | .eintr :: answers, c :: cs => writeLoop received answers (c :: cs)
  | .error :: answers, _ :: _ => (false, ⟨received, answers⟩)

def rio_writen (client : Client) (text : Bytes) : Bool × Client :=
  writeLoop client.received client.answers text

/-- A `memcpy` to `temp` or to an offset in `response`, or a `rio_writen`, and its length. -/
inductive Move where
  | temp (n : BitVec 64)
  | response (offset n : BitVec 64)
  | client (n : BitVec 64)
  deriving DecidableEq, Repr

def Move.length : Move → BitVec 64
  | .temp n => n
  | .response _ n => n
  | .client n => n

/-- The move stays inside its array. -/
def Move.Fits : Move → Prop
  | .temp n => n.toNat ≤ MAX_OBJECT_SIZE
  | .response offset n => offset.toNat + n.toNat ≤ MAX_OBJECT_SIZE
  | .client n => n.toNat ≤ MAX_OBJECT_SIZE

structure State where
  rio : Rio
  client : Client
  response : Buffer MAX_OBJECT_SIZE
  leftover : BitVec 64
  size : BitVec 64
  moves : List Move

def State.log (s : State) (m : Move) : State := { s with moves := s.moves ++ [m] }

/-- `rio_writen(client_fd, temp, n)`, whose result nobody looks at. -/
def State.write (s : State) (temp : Bytes) (n : BitVec 64) : State :=
  { s with client := (rio_writen s.client temp).2, moves := s.moves ++ [.client n] }

/-- The body of the loop, with `n` bytes in `buf`. `error`: a copy runs over its array. -/
def relayBody (n : BitVec 64) (buf : Bytes) (s : State) : Except State State :=
  let s := s.log (.temp n)
  if n.toNat ≤ MAX_OBJECT_SIZE then
    let temp := buf
    if s.leftover > 0 then
      let s := s.log (.response s.size n)
      match s.response.memcpy s.size.toNat temp with
      | .ok response =>
        let s := { s with response := response, leftover := s.leftover - n, size := s.size + n }
        .ok (s.write temp n)
      | .error _ => .error s
    else
      let s := { s with size := 0 }
      .ok (s.write temp n)
  else .error s

/-- `n = rio_readnb(..)`: the `-1` of an error becomes the largest `size_t`. -/
def lengthRead : Option Bytes → BitVec 64
  | some bytes => BitVec.ofNat 64 bytes.length
  | none => -1

/-- How a run ends, and where. -/
inductive Ending where
  | returned (s : State)
  | fault (s : State)

def relayLoop : ℕ → State → Except Stop Ending
  | 0, _ => .error .fuel
  | k + 1, s =>
    let (got, rio) := rio_readnb MAX_OBJECT_SIZE s.rio
    let s := { s with rio := rio }
    let n := lengthRead got
    if n > 0 then
      match relayBody n (got.getD []) s with
      | .ok s => relayLoop k s
      | .error s => .ok (.fault s)
    else .ok (.returned s)

/-- `send_response_to_client` as `doit` calls it, with `*size = 0`. -/
def send_response_to_client (fuel : ℕ) (server : List ReadEv) (client : Client)
    (response : Buffer MAX_OBJECT_SIZE) : Except Stop Ending :=
  relayLoop fuel ⟨rio_readinitb server, client, response, BitVec.ofNat 64 MAX_OBJECT_SIZE, 0, []⟩

/-! ### Writes -/

theorem writeLoop_whole : ∀ {answers : List WriteEv} (received text : Bytes),
    .error ∉ answers → (writeLoop received answers text).2.received = received ++ text ∧
      .error ∉ (writeLoop received answers text).2.answers
  | answers, received, [], h => by
      rw [writeLoop, List.append_nil]
      exact ⟨rfl, h⟩
  | [], received, c :: cs, h => by
      rw [writeLoop]
      exact ⟨rfl, h⟩
  | .sent more :: answers, received, c :: cs, h => by
      rw [writeLoop]
      obtain ⟨hall, hno⟩ := writeLoop_whole (received ++ (c :: cs).take (more + 1))
        ((c :: cs).drop (more + 1)) (fun hin => h (List.mem_cons_of_mem _ hin))
      rw [hall, List.append_assoc, List.take_append_drop]
      exact ⟨rfl, hno⟩
  | .eintr :: answers, received, c :: cs, h => by
      rw [writeLoop]
      exact writeLoop_whole received (c :: cs) (fun hin => h (List.mem_cons_of_mem _ hin))
  | .error :: answers, _, _ :: _, h => absurd List.mem_cons_self h

/-- Short and interrupted writes lose nothing. -/
theorem rio_writen_whole {client : Client} (text : Bytes) (h : .error ∉ client.answers) :
    (rio_writen client text).2.received = client.received ++ text ∧
      .error ∉ (rio_writen client text).2.answers :=
  writeLoop_whole client.received text h

/-! ### One round -/

section Round
variable {s : State} {chunk text done start : Bytes} {n : BitVec 64}

theorem lengthRead_toNat (h : chunk.length ≤ MAX_OBJECT_SIZE) :
    (lengthRead (some chunk)).toNat = chunk.length := by
  rw [lengthRead, BitVec.toNat_ofNat, Nat.mod_eq_of_lt]
  exact Nat.lt_of_le_of_lt h (by decide)

/-- While there is room, a block that fits goes behind the blocks before it. -/
theorem relayBody_copy (hn : n.toNat = chunk.length) (hleft : s.leftover > 0)
    (hfit : s.size.toNat + chunk.length ≤ MAX_OBJECT_SIZE) :
    ∃ response : Buffer MAX_OBJECT_SIZE,
      response.bytes.take (s.size.toNat + chunk.length) =
        s.response.bytes.take s.size.toNat ++ chunk ∧
      relayBody n chunk s = .ok
        { s with client := (rio_writen s.client chunk).2, response := response,
                 leftover := s.leftover - n, size := s.size + n,
                 moves := s.moves ++ [.temp n, .response s.size n, .client n] } := by
  obtain ⟨response, hcopy, htake⟩ := s.response.memcpy_ok hfit
  have hroom : (s.log (.temp n)).leftover > 0 := hleft
  refine ⟨response, htake, ?_⟩
  rw [relayBody]
  simp only
  rw [if_pos (by omega), if_pos hroom]
  simp only [State.log, State.write, hcopy]
  simp

/-- A block that does not fit runs over the response. -/
theorem relayBody_over (hn : n.toNat = chunk.length) (hlen : chunk.length ≤ MAX_OBJECT_SIZE)
    (hleft : s.leftover > 0) (hover : MAX_OBJECT_SIZE < s.size.toNat + chunk.length) :
    ∃ s', relayBody n chunk s = .error s' := by
  have hroom : (s.log (.temp n)).leftover > 0 := hleft
  have hcopy : s.response.memcpy s.size.toNat chunk = .error .fault :=
    dif_neg (Nat.not_le.mpr hover)
  rw [relayBody]
  simp only
  rw [if_pos (by omega), if_pos hroom]
  simp only [State.log, hcopy]
  exact ⟨_, rfl⟩

/-- A block after the first only takes the size back. -/
theorem relayBody_after (hn : n.toNat = chunk.length) (hlen : chunk.length ≤ MAX_OBJECT_SIZE)
    (hleft : s.leftover = 0) : relayBody n chunk s = .ok
      { s with client := (rio_writen s.client chunk).2, size := 0,
               moves := s.moves ++ [.temp n, .client n] } := by
  have hfull : ¬ (s.log (.temp n)).leftover > 0 := by
    rw [State.log, hleft]
    decide
  rw [relayBody]
  simp only
  rw [if_pos (hn ▸ hlen), if_neg hfull]
  simp [State.log, State.write]

theorem size_add (h : s.size.toNat + n.toNat ≤ MAX_OBJECT_SIZE) :
    (s.size + n).toNat = s.size.toNat + n.toNat := by
  have hmax : MAX_OBJECT_SIZE < 2 ^ 64 := by decide
  rw [BitVec.toNat_add, Nat.mod_eq_of_lt (by omega)]

theorem lengthRead_pos (hpos : chunk ≠ []) (hlen : chunk.length ≤ MAX_OBJECT_SIZE) :
    lengthRead (some chunk) > 0 := by
  rw [gt_iff_lt, BitVec.lt_def, lengthRead_toNat hlen]
  exact List.length_pos_of_ne_nil hpos

/-- The loop goes on behind a block that it could pass on. -/
theorem relayLoop_block {rio : Rio} {s' : State} (k : ℕ) (hpos : chunk ≠ [])
    (hlen : chunk.length ≤ MAX_OBJECT_SIZE)
    (hread : rio_readnb MAX_OBJECT_SIZE s.rio = (some chunk, rio))
    (hbody : relayBody (lengthRead (some chunk)) chunk { s with rio := rio } = .ok s') :
    relayLoop (k + 1) s = relayLoop k s' := by
  rw [relayLoop, hread]
  simp only
  rw [if_pos (lengthRead_pos hpos hlen), Option.getD_some, hbody]

theorem relayLoop_end {rio : Rio} (k : ℕ)
    (hread : rio_readnb MAX_OBJECT_SIZE s.rio = (some [], rio)) :
    relayLoop (k + 1) s = .ok (.returned { s with rio := rio }) := by
  rw [relayLoop, hread]
  rfl

/-- After a failed read `memcpy` is asked for `2 ^ 64 - 1` bytes. -/
theorem relayLoop_error {rio : Rio} (k : ℕ)
    (hread : rio_readnb MAX_OBJECT_SIZE s.rio = (none, rio)) :
    relayLoop (k + 1) s = .ok (.fault ({ s with rio := rio }.log (.temp (-1)))) := by
  rw [relayLoop, hread]
  rfl

end Round

/-! ### A stream that ends -/

/-- `done` has been relayed to a client that had received `start`, and `rest` is to come. A block
    is cut short by the end of the stream only. -/
structure Relaying (start done rest : Bytes) (s : State) : Prop where
  unread : s.rio.bytes = rest
  whole : ¬ s.rio.Broken
  received : s.client.received = start ++ done
  answers : .error ∉ s.client.answers
  fits : ∀ m ∈ s.moves, m.Fits
  block : done = [] ∨ MAX_OBJECT_SIZE ≤ done.length ∨ rest = []
  leftover : s.leftover.toNat = MAX_OBJECT_SIZE - done.length
  kept : done.length ≤ MAX_OBJECT_SIZE →
    s.size.toNat = done.length ∧ s.response.bytes.take done.length = done
  dropped : MAX_OBJECT_SIZE < done.length → s.size = 0

section Stream
variable {s : State} {start done rest : Bytes}

theorem Relaying.step (h : Relaying start done rest s) (hne : rest ≠ []) :
    ∃ s', (∀ k, relayLoop (k + 1) s = relayLoop k s') ∧
      Relaying start (done ++ rest.take MAX_OBJECT_SIZE) (rest.drop MAX_OBJECT_SIZE) s' := by
  obtain ⟨rio, hread, hrest, hsame⟩ := @rio_readnb_some MAX_OBJECT_SIZE s.rio (Or.inr h.whole)
  rw [h.unread] at hread hrest
  obtain ⟨hreceived, hanswers⟩ := rio_writen_whole (rest.take MAX_OBJECT_SIZE) h.answers
  have hwhole : ¬ rio.Broken := fun hb => h.whole (hsame.mp hb)
  have hpos : rest.take MAX_OBJECT_SIZE ≠ [] := by
    rw [ne_eq, List.take_eq_nil_iff, not_or]
    exact ⟨by decide, hne⟩
  have hlen : (rest.take MAX_OBJECT_SIZE).length ≤ MAX_OBJECT_SIZE := List.length_take_le _ _
  have hblock : MAX_OBJECT_SIZE ≤ (done ++ rest.take MAX_OBJECT_SIZE).length ∨
      rest.drop MAX_OBJECT_SIZE = [] := by
    rw [List.length_append, List.length_take, List.drop_eq_nil_iff]
    omega
  have hn := lengthRead_toNat hlen
  have hblen := hn.trans_le hlen
  have hpos' := List.length_pos_of_ne_nil hpos
  generalize rest.take MAX_OBJECT_SIZE = chunk at *
  rcases h.block with rfl | hfull | hnil
  · have hleft : s.leftover = BitVec.ofNat 64 MAX_OBJECT_SIZE :=
      BitVec.eq_of_toNat_eq (by rw [h.leftover]; rfl)
    have hsize : s.size = 0 := BitVec.eq_of_toNat_eq (h.kept (Nat.zero_le _)).1
    have hstart : s.size.toNat = 0 := (h.kept (Nat.zero_le _)).1
    obtain ⟨response, htake, hbody⟩ := relayBody_copy (s := { s with rio := rio }) hn
      (by rw [hleft]; decide) (show s.size.toNat + _ ≤ _ by omega)
    have hfits : s.size.toNat + (lengthRead (some chunk)).toNat ≤ MAX_OBJECT_SIZE := by omega
    refine ⟨_, fun k => relayLoop_block k hpos hlen hread hbody, hrest, hwhole, ?_, hanswers,
      List.forall_mem_append.mpr ⟨h.fits, by simp [Move.Fits, hblen, hfits]⟩, Or.inr hblock, ?_,
      fun _ => ⟨?_, ?_⟩, fun hlt => absurd hlen (Nat.not_le.mpr hlt)⟩
    · rw [hreceived, h.received, List.append_nil, List.nil_append]
    · have hle : lengthRead (some chunk) ≤ s.leftover := by
        rw [BitVec.le_def, hn, h.leftover]
        exact hlen
      change (s.leftover - _).toNat = _
      rw [BitVec.toNat_sub_of_le hle, hn, h.leftover]
      rfl
    · exact (size_add hfits).trans (by rw [hstart, hn, Nat.zero_add]; rfl)
    · simpa [hstart] using htake
  · have hleft : s.leftover = 0 :=
      BitVec.eq_of_toNat_eq (h.leftover.trans (Nat.sub_eq_zero_of_le hfull))
    have hbody := relayBody_after (s := { s with rio := rio }) hn hlen hleft
    have hmore : MAX_OBJECT_SIZE < (done ++ chunk).length := by
      rw [List.length_append]
      omega
    refine ⟨_, fun k => relayLoop_block k hpos hlen hread hbody, hrest, hwhole, ?_, hanswers,
      List.forall_mem_append.mpr ⟨h.fits, by simp [Move.Fits, hblen]⟩, Or.inr hblock, ?_,
      fun hle => absurd hle (Nat.not_le.mpr hmore), fun _ => rfl⟩
    · rw [hreceived, h.received, List.append_assoc]
    · change s.leftover.toNat = _
      rw [hleft, Nat.sub_eq_zero_of_le (Nat.le_of_lt hmore)]
      rfl
  · exact absurd hnil hne

theorem Relaying.run : ∀ {done rest : Bytes} {s : State}, Relaying start done rest s →
    ∃ s', Converges (fun fuel => relayLoop fuel s) (.returned s') ∧
      Relaying start (done ++ rest) [] s' := by
  intro done rest
  induction hlen : rest.length using Nat.strongRecOn generalizing done rest with
  | _ n ih =>
    intro s h
    rcases eq_or_ne rest [] with rfl | hne
    · obtain ⟨rio, hread, hrest, hsame⟩ := @rio_readnb_some MAX_OBJECT_SIZE s.rio (Or.inr h.whole)
      rw [h.unread] at hread hrest
      refine ⟨{ s with rio := rio }, Converges.const.succ fun k => relayLoop_end k hread, ?_⟩
      rw [List.append_nil]
      exact { h with unread := hrest, whole := fun hb => h.whole (hsame.mp hb) }
    · obtain ⟨s₁, hround, h₁⟩ := h.step hne
      have hshort : (rest.drop MAX_OBJECT_SIZE).length < n := by
        have := List.length_pos_of_ne_nil hne
        rw [List.length_drop, hlen]
        exact Nat.sub_lt (by omega) (by decide)
      obtain ⟨s', hrun, h'⟩ := ih _ hshort rfl h₁
      rw [List.append_assoc, List.take_append_drop] at h'
      exact ⟨s', hrun.succ hround, h'⟩

end Stream

/-- Of a stream without a failed read, to a client whose writes do not fail, the client gets every
    byte in order and once, and the response is kept whole if it fits and not at all if not. -/
theorem relays_whole (server : List ReadEv) (client : Client) (response : Buffer MAX_OBJECT_SIZE)
    (hread : .error ∉ server) (hwrite : .error ∉ client.answers) :
    ∃ s, Converges (fun fuel => send_response_to_client fuel server client response) (.returned s) ∧
      s.client.received = client.received ++ incoming server ∧
      ((incoming server).length ≤ MAX_OBJECT_SIZE → s.size.toNat = (incoming server).length ∧
        s.response.bytes.take (incoming server).length = incoming server) ∧
      (MAX_OBJECT_SIZE < (incoming server).length → s.size = 0) ∧
      ∀ m ∈ s.moves, m.Fits := by
  have hinit : Relaying client.received [] (incoming server) ⟨rio_readinitb server, client, response,
      BitVec.ofNat 64 MAX_OBJECT_SIZE, 0, []⟩ :=
    { unread := rfl, whole := hread, received := (List.append_nil _).symm, answers := hwrite,
      fits := nofun, block := Or.inl rfl, leftover := rfl, kept := fun _ => ⟨rfl, rfl⟩,
      dropped := nofun }
  obtain ⟨s, hrun, h⟩ := hinit.run
  exact ⟨s, hrun, h.received, h.kept, h.dropped, h.fits⟩

/-- A greeting in two pieces, to a client that takes one byte, is interrupted, and takes the rest. -/
theorem relays_whole_pieces :
    ∃ s, Converges (fun fuel => send_response_to_client fuel
        [.data 104 [101], .eintr, .data 108 [108, 111]] ⟨[], [.sent 0, .eintr]⟩
        (Buffer.strncpy MAX_OBJECT_SIZE [])) (.returned s) ∧
      s.client.received = str "hello" ∧ s.size.toNat = 5 := by
  obtain ⟨s, hrun, hreceived, hkept, -⟩ := relays_whole
    [.data 104 [101], .eintr, .data 108 [108, 111]] ⟨[], [.sent 0, .eintr]⟩
    (Buffer.strncpy MAX_OBJECT_SIZE []) (by decide) (by decide)
  exact ⟨s, hrun, hreceived, (hkept (by decide)).1⟩

/-! ### A stream that breaks -/

/-- What is expected when a read fails: the function returns with `*size = 0`, so that nothing is
    inserted, and no single copy or write was longer than a block. -/
def Handled (run : ℕ → Except Stop Ending) : Prop :=
  ∃ s, Converges run (.returned s) ∧ s.size = 0 ∧ ∀ m ∈ s.moves, m.length.toNat ≤ MAX_OBJECT_SIZE

/-- A read is going to fail, and all blocks so far were full ones. -/
structure Breaking (s : State) : Prop where
  broken : s.rio.Broken
  kept : (s.leftover = BitVec.ofNat 64 MAX_OBJECT_SIZE ∧ s.size = 0) ∨ s.leftover = 0

section Break
variable {s : State}

theorem Breaking.step (h : Breaking s) (hlen : MAX_OBJECT_SIZE ≤ s.rio.bytes.length) :
    ∃ s', (∀ k, relayLoop (k + 1) s = relayLoop k s') ∧ Breaking s' ∧
      s'.rio.bytes = s.rio.bytes.drop MAX_OBJECT_SIZE := by
  obtain ⟨rio, hread, hrest, hsame⟩ := rio_readnb_some MAX_OBJECT_SIZE (Or.inl hlen)
  have hfull : (s.rio.bytes.take MAX_OBJECT_SIZE).length = MAX_OBJECT_SIZE :=
    List.length_take_of_le hlen
  generalize s.rio.bytes.take MAX_OBJECT_SIZE = chunk at *
  have hpos : chunk ≠ [] := List.ne_nil_of_length_pos (hfull ▸ by decide)
  have hn := lengthRead_toNat hfull.le
  rcases h.kept with ⟨hleft, hsize⟩ | hleft
  · obtain ⟨response, -, hbody⟩ := relayBody_copy (s := { s with rio := rio }) hn
      (by rw [hleft]; decide) (show s.size.toNat + _ ≤ _ by rw [hsize, hfull]; decide)
    refine ⟨_, fun k => relayLoop_block k hpos hfull.le hread hbody,
      ⟨hsame.mpr h.broken, Or.inr ?_⟩, hrest⟩
    change s.leftover - lengthRead (some chunk) = 0
    rw [lengthRead, hfull, hleft, BitVec.sub_self]
    rfl
  · have hbody := relayBody_after (s := { s with rio := rio }) hn hfull.le hleft
    exact ⟨_, fun k => relayLoop_block k hpos hfull.le hread hbody,
      ⟨hsame.mpr h.broken, Or.inr hleft⟩, hrest⟩

theorem Breaking.run : ∀ {s : State}, Breaking s →
    ∃ s', Converges (fun fuel => relayLoop fuel s) (.fault s') ∧ .temp (-1) ∈ s'.moves := by
  intro s
  induction hlen : s.rio.bytes.length using Nat.strongRecOn generalizing s with
  | _ n ih =>
    intro h
    rcases Nat.lt_or_ge n MAX_OBJECT_SIZE with hlt | hge
    · obtain ⟨rio, hread⟩ := rio_readnb_none MAX_OBJECT_SIZE (hlen ▸ hlt) h.broken
      exact ⟨_, Converges.const.succ fun k => relayLoop_error k hread,
        List.mem_append_right _ List.mem_cons_self⟩
    · obtain ⟨s₁, hround, h₁, hrest⟩ := h.step (hlen ▸ hge)
      have hshort : s₁.rio.bytes.length < n := by
        have hmax : 0 < MAX_OBJECT_SIZE := by decide
        rw [hrest, List.length_drop, hlen]
        omega
      obtain ⟨s', hrun, hmem⟩ := ih _ hshort rfl h₁
      exact ⟨s', hrun.succ hround, hmem⟩

/-- A run that ends in a fault has handled nothing. -/
theorem not_handled_of_fault {run : ℕ → Except Stop Ending} {s : State}
    (h : Converges run (.fault s)) : ¬ Handled run := by
  rintro ⟨s', hrun, -⟩
  cases h.unique hrun

theorem breaking_init {server : List ReadEv} (client : Client) (response : Buffer MAX_OBJECT_SIZE)
    (h : .error ∈ server) : Breaking ⟨rio_readinitb server, client, response,
      BitVec.ofNat 64 MAX_OBJECT_SIZE, 0, []⟩ :=
  ⟨h, Or.inl ⟨rfl, rfl⟩⟩

end Break

/-- A read that fails is never handled: the length `-1` goes into `memcpy` as the largest number. -/
theorem broken_not_handled (server : List ReadEv) (client : Client)
    (response : Buffer MAX_OBJECT_SIZE) (hbroken : .error ∈ server) :
    ¬ Handled (fun fuel => send_response_to_client fuel server client response) ∧
    ∃ s, Converges (fun fuel => send_response_to_client fuel server client response) (.fault s) ∧
      .temp (-1) ∈ s.moves := by
  obtain ⟨s, hrun, hmem⟩ := (breaking_init client response hbroken).run
  exact ⟨not_handled_of_fault hrun, s, hrun, hmem⟩

theorem broken_not_handled_empty : ∃ s,
    Converges (fun fuel => send_response_to_client fuel [.eintr, .error] ⟨[], []⟩
      (Buffer.strncpy MAX_OBJECT_SIZE [])) (.fault s) ∧ .temp (-1) ∈ s.moves :=
  (broken_not_handled _ _ _ (by decide)).2

/-- The connection is reset after twelve bytes of a response. -/
theorem reset_not_handled :
    .error ∈ arriving (str "HTTP/1.0 200") ++ [.error] ∧
    ¬ Handled (fun fuel => send_response_to_client fuel (arriving (str "HTTP/1.0 200") ++ [.error])
      ⟨[], []⟩ (Buffer.strncpy MAX_OBJECT_SIZE [])) := by
  have hreset : .error ∈ arriving (str "HTTP/1.0 200") ++ [.error] := by decide
  obtain ⟨s, hrun, -⟩ :=
    (breaking_init ⟨[], []⟩ (Buffer.strncpy MAX_OBJECT_SIZE []) hreset).run
  exact ⟨hreset, not_handled_of_fault hrun⟩

/-! ### The relay as `doit` sees it -/

/-- The run of the relay inside `doit`, and the run here, end alike. -/
inductive Agree (start : Bytes) :
    Except Stop (Bytes × ℕ × List Action) → Except Stop Ending → Prop
  | returned (response : Bytes) (acts : List Action) (s : State)
      (hkept : s.response.bytes.take s.size.toNat = response.take s.size.toNat)
      (hreceived : s.client.received = start ++ clientText acts) :
      Agree start (.ok (response, s.size.toNat, acts)) (.ok (.returned s))
  | fault (s : State) : Agree start (.error .fault) (.ok (.fault s))
  | fuel : Agree start (.error .fuel) (.error .fuel)

theorem Agree.cons {start temp : Bytes} {run : Except Stop (Bytes × ℕ × List Action)}
    {run' : Except Stop Ending} (h : Agree (start ++ temp) run run') :
    Agree start (run >>= fun x => .ok (x.1, x.2.1, .toClient temp :: x.2.2)) run' := by
  rcases h with ⟨response, acts, s, hkept, hreceived⟩ | ⟨s⟩ | _
  · exact .returned response _ s hkept (by rw [hreceived, List.append_assoc]; rfl)
  · exact .fault s
  · exact .fuel

/-- The counters and the response of `doit` are those of `s`. -/
structure Matches (response : Bytes) (leftover size : ℕ) (s : State) : Prop where
  left_eq : s.leftover.toNat = leftover
  size_eq : s.size.toNat = size
  kept : s.response.bytes.take size = response.take size
  room : leftover + size = MAX_OBJECT_SIZE ∨ leftover = 0

/-- A copy keeps the two in step. -/
theorem Matches.copy {s s' : State} {response chunk : Bytes} {leftover size : ℕ} {n : BitVec 64}
    (h : Matches response leftover size s) (hn : n.toNat = chunk.length) (hpos : 0 < leftover)
    (hfit : size + chunk.length ≤ MAX_OBJECT_SIZE) (hleft : s'.leftover = s.leftover - n)
    (hsize : s'.size = s.size + n) (htake : s'.response.bytes.take (size + chunk.length) =
      s.response.bytes.take size ++ chunk) :
    Matches (response.take size ++ chunk) (leftover - chunk.length) (size + chunk.length) s' := by
  have hroom := h.room.resolve_right hpos.ne'
  have hle : n ≤ s.leftover := by
    rw [BitVec.le_def, hn, h.left_eq]
    omega
  have hpre : (response.take size).length = size := by
    rw [← h.kept, List.length_take_of_le (by rw [s.response.size]; omega)]
  refine ⟨?_, ?_, ?_, Or.inl (by omega)⟩
  · rw [hleft, BitVec.toNat_sub_of_le hle, hn, h.left_eq]
  · rw [hsize, size_add (by rw [h.size_eq, hn]; exact hfit), hn, h.size_eq]
  · calc s'.response.bytes.take (size + chunk.length)
        = s.response.bytes.take size ++ chunk := htake
      _ = response.take size ++ chunk := by rw [h.kept]
      _ = (response.take size ++ chunk).take (size + chunk.length) :=
          (List.take_of_length_le (by rw [List.length_append, hpre])).symm

/-- One block of the relay in `doit` and of the exact one. -/
theorem relay_agrees_block {k : ℕ} {s : State} {rio : Rio} {chunk response : Bytes}
    {leftover size : ℕ}
    (ih : ∀ {s : State} {response : Bytes} {leftover size : ℕ},
      Matches response leftover size s → .error ∉ s.client.answers →
      Agree s.client.received (Http.relayLoop k s.rio response leftover size) (relayLoop k s))
    (h : Matches response leftover size s) (hanswers : .error ∉ s.client.answers)
    (hne : chunk ≠ []) (hlen : chunk.length ≤ MAX_OBJECT_SIZE)
    (hread : rio_readnb MAX_OBJECT_SIZE s.rio = (some chunk, rio)) :
    Agree s.client.received (Http.relayLoop (k + 1) s.rio response leftover size)
      (relayLoop (k + 1) s) := by
  have hn := lengthRead_toNat hlen
  obtain ⟨hreceived, hanswers'⟩ := rio_writen_whole chunk hanswers
  obtain ⟨c, cs, rfl⟩ := List.exists_cons_of_ne_nil hne
  rw [Http.relayLoop, hread]
  simp only
  rcases Nat.eq_zero_or_pos leftover with rfl | hpos
  · have hleft : s.leftover = 0 := BitVec.eq_of_toNat_eq h.left_eq
    have hbody := relayBody_after (s := { s with rio := rio }) hn hlen hleft
    rw [relayLoop_block k hne hlen hread hbody, if_neg (Nat.lt_irrefl 0), ok_bind]
    refine Agree.cons ?_
    rw [← hreceived]
    exact @ih { s with rio := rio, client := (rio_writen s.client (c :: cs)).2, size := 0,
                       moves := _ } _ _ _ ⟨h.left_eq, rfl, rfl, Or.inr rfl⟩ hanswers'
  · have hleft : s.leftover > 0 := by
      rw [gt_iff_lt, BitVec.lt_def, h.left_eq]
      exact hpos
    obtain rfl := h.size_eq
    rcases Nat.lt_or_ge MAX_OBJECT_SIZE (s.size.toNat + (c :: cs).length) with hover | hfit
    · obtain ⟨s', hbody⟩ := relayBody_over (s := { s with rio := rio }) hn hlen hleft hover
      rw [if_pos hpos, if_neg (Nat.not_le.mpr hover), relayLoop, hread]
      simp only
      rw [if_pos (lengthRead_pos hne hlen), Option.getD_some, hbody]
      exact .fault s'
    · obtain ⟨filled, htake, hbody⟩ := relayBody_copy (s := { s with rio := rio }) hn hleft hfit
      rw [relayLoop_block k hne hlen hread hbody, if_pos hpos, if_pos hfit, ok_bind]
      refine Agree.cons ?_
      rw [← hreceived]
      exact @ih { s with rio := rio, client := (rio_writen s.client (c :: cs)).2,
                         response := filled, leftover := s.leftover - _, size := s.size + _,
                         moves := _ } _ _ _ (h.copy hn hpos hfit rfl rfl htake) hanswers'

/-- The exact relay refines the one in `doit`, for a client whose writes do not fail. -/
theorem relay_agrees (k : ℕ) : ∀ {s : State} {response : Bytes} {leftover size : ℕ},
    Matches response leftover size s → .error ∉ s.client.answers →
    Agree s.client.received (Http.relayLoop k s.rio response leftover size) (relayLoop k s) := by
  induction k with
  | zero => exact fun _ _ => .fuel
  | succ k ih =>
    intro s response leftover size h hanswers
    rcases em (MAX_OBJECT_SIZE ≤ s.rio.bytes.length ∨ ¬ s.rio.Broken) with hgood | hbad
    · obtain ⟨rio, hread, -, -⟩ := rio_readnb_some MAX_OBJECT_SIZE hgood
      rcases eq_or_ne (s.rio.bytes.take MAX_OBJECT_SIZE) [] with hnil | hne
      · rw [hnil] at hread
        obtain rfl := h.size_eq
        rw [Http.relayLoop, relayLoop_end k hread, hread]
        exact .returned response [] { s with rio := rio } h.kept (List.append_nil _).symm
      · exact relay_agrees_block ih h hanswers hne (List.length_take_le _ _) hread
    · rw [not_or, not_le, not_not] at hbad
      obtain ⟨rio, hread⟩ := rio_readnb_none MAX_OBJECT_SIZE hbad.1 hbad.2
      rw [Http.relayLoop, relayLoop_error k hread, hread]
      exact .fault _

theorem send_response_agrees (fuel : ℕ) (server : List ReadEv) {client : Client}
    (response : Buffer MAX_OBJECT_SIZE) (hwrite : .error ∉ client.answers) :
    Agree client.received (Http.send_response_to_client fuel server)
      (send_response_to_client fuel server client response) :=
  @relay_agrees fuel ⟨rio_readinitb server, client, response, BitVec.ofNat 64 MAX_OBJECT_SIZE, 0,
    []⟩ [] MAX_OBJECT_SIZE 0 ⟨rfl, rfl, rfl, Or.inl rfl⟩ hwrite

end Labs.Http.Relay
