import SystemsLabs.Proxylab.Doit

/-! @lab proxylab | file:proxy.c (read_request, doit) | structure:one request | main result:refusals

    When is a request that `read_request` rejects refused, and nothing more? `read_request` cannot
    tell `doit` that it has answered, so `doit` stops only where it would stop anyway: when
    `pthread_mutex_init` fails, or when a POST names a host that it looks up in vain and cannot
    reach. `doit_inv` says all a run of `doit` can come to. -/

namespace Labs.Http
open Schemes Labs.WebCache

def Action.toText : Action → Bytes
  | .toClient bytes => bytes
  | _ => []

/-- What the client receives. -/
def clientText (acts : List Action) : Bytes := (acts.map Action.toText).flatten

/-- An action that touches no server and no unassigned buffer but `uri`. -/
def Action.Quiet : Action → Prop
  | .toClient _ => True
  | .unassigned b => b = .uri
  | _ => False

/-- The run sends the client the reply and nothing after it, touches nothing else, and leaves the
    cache and the counter as they were. -/
def Refused (run : ℕ → Except Stop (Proxy × List Action)) (p : Proxy) (reply : Bytes) : Prop :=
  ∃ acts, Converges run (p, acts) ∧ clientText acts = reply ∧ ∀ a ∈ acts, a.Quiet

/-- The first line as the client sent it, up to a NUL byte. -/
def received : Line → Bytes
  | .line bytes => cstr bytes
  | .eof => []
  | .error bytes => cstr bytes

/-- The tokens of the first line. -/
def sentWords (fd : List ReadEv) : List Bytes :=
  scanWords 3 (received (rio_readlineb (rio_readinitb fd) MAXLINE).1)

/-- The tokens that `read_request` scans: where no line arrived, it scans what the stack held. -/
def scannedWords (stack : Stack) (fd : List ReadEv) : List Bytes :=
  scanWords 3 (lineBuf stack (rio_readlineb (rio_readinitb fd) MAXLINE).1)

/-- The first line has not three tokens, or its method is not GET. -/
def Rejected (fd : List ReadEv) : Prop :=
  (sentWords fd).length ≠ 3 ∨ (sentWords fd)[0]? ≠ some (str "GET")

/-- The error page for the request. -/
def errorReply (fd : List ReadEv) : Bytes :=
  clientText (if (sentWords fd).length = 3 then notImplemented else badRequest)

/-- Some block holds the URI. -/
def Cached (p : Proxy) (uri : Bytes) : Prop := ∃ l, Rep p.mem l ∧ ∃ x ∈ l, x.2.uri = uri

/-- The port in the host text of a URI. -/
def portOf (host : Bytes) : Bytes :=
  if 58 ∈ host then (host.dropWhile (· ≠ 58)).drop 1 else str "80"

/-- Where `doit` stops after the error page. -/
def Stops (env : Env) (stack : Stack) (fd : List ReadEv) (p : Proxy) : Prop :=
  if (scannedWords stack fd).length ≠ 3 then env.initFails = true
  else (sentWords fd).length = 3 ∧ (sentWords fd)[0]? = some (str "POST") ∧
    ∃ uri, (sentWords fd)[1]? = some uri ∧
      ((¬ str "://" <:+: uri ∧ env.initFails = true) ∨
        ∃ host, (scanHostPath uri).1 = some host ∧ (env.initFails = true ∨
          (host[0]? ≠ some 58 ∧ ¬ Cached p uri ∧
            env.connects (host.takeWhile (· ≠ 58)) (portOf host) = false)))

/-! ### What a run of `doit` comes to -/

@[simp] theorem clientText_append (a b : List Action) :
    clientText (a ++ b) = clientText a ++ clientText b := by
  simp [clientText]

theorem clientText_use (stack : Stack) (b : Buf) (v : Option Bytes) :
    clientText (stack.use b v).2 = [] := by
  cases v with
  | none => rfl
  | some v => rfl

theorem quiet_use_uri (stack : Stack) (v : Option Bytes) : ∀ a ∈ (stack.use .uri v).2, a.Quiet := by
  cases v with
  | none =>
    intro a ha
    rw [List.mem_singleton.mp ha]
    rfl
  | some v => exact nofun

/-- The counter moves with every access. -/
theorem addSize_ne (n : ℕ) : addSize n 1 ≠ n := by
  unfold addSize
  omega

section Run
variable {fuel : ℕ} {env : Env} {stack : Stack} {fd : List ReadEv} {p p' : Proxy} {l : List Block}
  {parsed : Parsed} {acts acts' : List Action}

theorem not_quiet_use (stack : Stack) {b : Buf} (hb : b ≠ .uri) (rest : List Action) :
    ∃ a ∈ (stack.use b none).2 ++ rest, ¬ a.Quiet :=
  ⟨.unassigned b, List.mem_cons_self, hb⟩

/-- Forwarding is quiet only when host name and port are assigned and the server is not reached. -/
theorem forward_inv {uri : Bytes} (h : forward fuel env stack parsed uri p = .ok (p', acts)) :
    (∃ a ∈ acts, ¬ a.Quiet) ∨
    ∃ hostname port, parsed.hostname = some hostname ∧ parsed.port = some port ∧
      env.connects hostname port = false ∧ acts = [] := by
  rw [forward] at h
  simp only at h
  split at h
  · rename_i hconn
    have hmem : ∃ hostname port, Action.connect hostname port ∈ acts := by
      split at h
      · obtain ⟨⟨response, size, relayed⟩, -, h⟩ := bind_ok h
        simp only at h
        split at h
        · obtain ⟨p₁, -, h⟩ := bind_ok h
          obtain ⟨-, rfl⟩ := Prod.mk.inj (Except.ok.inj h)
          exact ⟨_, _, by simp; exact Or.inr (Or.inr (Or.inl ⟨rfl, rfl⟩))⟩
        · obtain ⟨-, rfl⟩ := Prod.mk.inj (Except.ok.inj h)
          exact ⟨_, _, by simp; exact Or.inr (Or.inr (Or.inl ⟨rfl, rfl⟩))⟩
      · obtain ⟨-, rfl⟩ := Prod.mk.inj (Except.ok.inj h)
        exact ⟨_, _, by simp; exact Or.inr (Or.inr (Or.inl ⟨rfl, rfl⟩))⟩
    obtain ⟨hostname, port, hmem⟩ := hmem
    exact Or.inl ⟨_, hmem, id⟩
  · rename_i hconn
    obtain ⟨-, rfl⟩ := Prod.mk.inj (Except.ok.inj h)
    cases hhost : parsed.hostname with
    | none => exact Or.inl (not_quiet_use stack (by simp) _)
    | some hostname =>
      cases hport : parsed.port with
      | none => exact Or.inl (not_quiet_use stack (by simp) [])
      | some port =>
        rw [hhost, hport] at hconn
        exact Or.inr ⟨hostname, port, rfl, rfl, by simpa [Stack.use] using hconn, rfl⟩

theorem forward_unreached {uri hostname port : Bytes} (hhost : parsed.hostname = some hostname)
    (hport : parsed.port = some port) (hconn : env.connects hostname port = false) :
    forward fuel env stack parsed uri p = .ok (p, []) := by
  rw [forward, hhost, hport]
  simp only [Stack.use, hconn]
  rfl

/-- A run ends after `read_request` when `pthread_mutex_init` fails; else it hits and moves the
    counter, or does something that is not quiet, or misses and cannot connect. -/
theorem doit_inv (hok : CacheOk p.mem l) (hfuel : l.length < fuel)
    (h : doit fuel env stack fd p = .ok (p', acts)) :
    ∃ parsed acts', read_request fuel stack fd = .ok (parsed, acts') ∧
      ((env.initFails = true ∧ acts = acts') ∨
        p'.time_count ≠ p.time_count ∨ (∃ a ∈ acts, ¬ a.Quiet) ∨
        ((∀ x ∈ l, x.2.uri ≠ (stack.use .uri parsed.uri).1) ∧
          acts = acts' ++ (stack.use .uri parsed.uri).2 ∧
          ∃ hostname port, parsed.hostname = some hostname ∧ parsed.port = some port ∧
            env.connects hostname port = false)) := by
  rw [doit] at h
  obtain ⟨⟨parsed, acts'⟩, hread, h⟩ := bind_ok h
  refine ⟨parsed, acts', hread, ?_⟩
  simp only at h
  split at h
  · rename_i hinit
    obtain ⟨-, rfl⟩ := Prod.mk.inj (Except.ok.inj h)
    exact Or.inl ⟨hinit, rfl⟩
  · refine Or.inr ?_
    rcases em (∃ x ∈ l, x.2.uri = (stack.use .uri parsed.uri).1) with ⟨x, hx, huri⟩ | hmiss
    · obtain ⟨l₁, l₂, rfl⟩ := List.append_of_mem hx
      obtain ⟨m', -, hhit⟩ := lookup_hit hok
      rw [← huri, hhit fuel hfuel, ok_bind] at h
      obtain ⟨rfl, -⟩ := Prod.mk.inj (Except.ok.inj h)
      exact Or.inl (addSize_ne _)
    · have hmiss' : ∀ x ∈ l, x.2.uri ≠ (stack.use .uri parsed.uri).1 := fun x hx hu =>
        hmiss ⟨x, hx, hu⟩
      rw [lookup_miss hok hfuel hmiss', ok_bind] at h
      obtain ⟨⟨p₁, forwarded⟩, hfwd, h⟩ := bind_ok h
      obtain ⟨rfl, rfl⟩ := Prod.mk.inj (Except.ok.inj h)
      rcases forward_inv hfwd with ⟨a, ha, hq⟩ | ⟨hostname, port, hhost, hport, hconn, rfl⟩
      · exact Or.inr (Or.inl ⟨a, List.mem_append_right _ ha, hq⟩)
      · exact Or.inr (Or.inr ⟨hmiss', List.append_nil _, hostname, port, hhost, hport, hconn⟩)

/-- A run whose request is parsed the same way whatever the fuel is refused iff its reply is the
    right one and quiet, and it stops at `pthread_mutex_init` or at a connection that fails. -/
theorem refused_iff {reply : Bytes} (hok : CacheOk p.mem l)
    (hread : ∀ fuel, read_request fuel stack fd = .ok (parsed, acts)) :
    Refused (fun fuel => doit fuel env stack fd p) p reply ↔
      clientText acts = reply ∧ (∀ a ∈ acts, a.Quiet) ∧ (env.initFails = true ∨
        ((∀ x ∈ l, x.2.uri ≠ (stack.use .uri parsed.uri).1) ∧
          ∃ hostname port, parsed.hostname = some hostname ∧ parsed.port = some port ∧
            env.connects hostname port = false)) := by
  constructor
  · rintro ⟨acts', hrun, htext, hquiet⟩
    obtain ⟨fuel, hfuel, hres⟩ := hrun.above (l.length + 1)
    obtain ⟨parsed', acts₁, hread', hcases⟩ := doit_inv hok hfuel hres
    obtain ⟨rfl, rfl⟩ := Prod.mk.inj (Except.ok.inj ((hread fuel).symm.trans hread'))
    rcases hcases with ⟨hinit, rfl⟩ | hcount | ⟨a, ha, hnq⟩ | ⟨hmiss, rfl, hconn⟩
    · exact ⟨htext, hquiet, Or.inl hinit⟩
    · exact absurd rfl hcount
    · exact absurd (hquiet a ha) hnq
    · rw [clientText_append, clientText_use, List.append_nil] at htext
      exact ⟨htext, fun a ha => hquiet a (List.mem_append_left _ ha), Or.inr ⟨hmiss, hconn⟩⟩
  · rintro ⟨htext, hquiet, hstop⟩
    rcases Bool.eq_false_or_eq_true env.initFails with hinit | hinit
    · refine ⟨acts, ⟨0, fun fuel _ => ?_⟩, htext, hquiet⟩
      change doit fuel env stack fd p = _
      rw [doit, hread fuel, ok_bind]
      simp only
      rw [if_pos hinit]
      rfl
    · rcases hstop with hfail | ⟨hmiss, hostname, port, hhost, hport, hconn⟩
      · rw [hinit] at hfail
        cases hfail
      · refine ⟨acts ++ (stack.use .uri parsed.uri).2, ⟨l.length + 1, fun fuel hfuel => ?_⟩, ?_, ?_⟩
        · change doit fuel env stack fd p = _
          rw [doit, hread fuel, ok_bind]
          simp only
          rw [if_neg (by simp [hinit]), lookup_miss hok hfuel hmiss, ok_bind]
          rw [forward_unreached hhost hport hconn, ok_bind, List.append_nil]
          rfl
        · rw [clientText_append, clientText_use, List.append_nil, htext]
        · intro a ha
          rcases List.mem_append.mp ha with ha | ha
          · exact hquiet a ha
          · exact quiet_use_uri stack _ a ha

end Run

/-! ### What `read_request` did -/

section Words
variable {fuel : ℕ} {stack : Stack} {fd : List ReadEv} {parsed : Parsed} {acts : List Action}
  {method uri version : Bytes}

theorem read_request_malformed (h : (scannedWords stack fd).length ≠ 3) (fuel : ℕ) :
    read_request fuel stack fd =
      .ok ({ Parsed.none with uri := (scannedWords stack fd)[1]? }, badRequest) := by
  unfold scannedWords at h ⊢
  rw [read_request]
  simp only
  split
  · rename_i heq
    rw [heq] at h
    exact absurd rfl h
  · rfl

theorem read_request_other (h : scannedWords stack fd = [method, uri, version])
    (hget : method ≠ str "GET") (fuel : ℕ) :
    read_request fuel stack fd = .ok ((parseUri stack uri).1,
      (parseUri stack uri).2 ++ if method = str "POST" then notImplemented else []) := by
  rw [scannedWords] at h
  rw [read_request]
  simp only [h]
  rw [if_neg hget]
  rfl

theorem clientText_parseUri : clientText (parseUri stack uri).2 = [] := by
  rw [parseUri]
  split
  · simp only
    split
    · exact clientText_use stack _ _
    · exact clientText_use stack _ _
  · rfl

/-- Of a GET, the client hears nothing from `read_request`. -/
theorem read_request_silent (h : scannedWords stack fd = [str "GET", uri, version])
    (hread : read_request fuel stack fd = .ok (parsed, acts)) : clientText acts = [] := by
  rw [scannedWords] at h
  rw [read_request] at hread
  simp only [h] at hread
  rw [if_pos trivial, if_neg (by decide), List.append_nil] at hread
  obtain ⟨req, -, hread⟩ := bind_ok hread
  obtain ⟨-, rfl⟩ := Prod.mk.inj (Except.ok.inj hread)
  rw [clientText_append, clientText_append, clientText_parseUri, clientText_use, clientText_use]
  rfl

/-- How a URI is taken apart: no `://`; no host text behind `http://`; or a host text, which gives
    the port, and the host name unless it begins with the colon. -/
theorem parseUri_cases (stack : Stack) (uri : Bytes) :
    (¬ str "://" <:+: uri ∧ (scanHostPath uri).1 = none ∧
      parseUri stack uri = ({ Parsed.none with uri := some uri }, [])) ∨
    (str "://" <:+: uri ∧ (scanHostPath uri).1 = none ∧
      Action.unassigned .host ∈ (parseUri stack uri).2) ∨
    ∃ host, str "://" <:+: uri ∧ (scanHostPath uri).1 = some host ∧ (parseUri stack uri).2 = [] ∧
      (parseUri stack uri).1.uri = some uri ∧ (parseUri stack uri).1.port = some (portOf host) ∧
      (parseUri stack uri).1.hostname =
        if host[0]? = some 58 then none else some (host.takeWhile (· ≠ 58)) := by
  have hcolon : str ":" = [58] := rfl
  rw [parseUri, hcolon]
  simp only [strstr_single]
  rcases em (str "://" <:+: uri) with hin | hin
  · rw [if_pos (strstr_isSome.mpr hin)]
    cases hhost : (scanHostPath uri).1 with
    | none =>
      refine Or.inr (Or.inl ⟨hin, rfl, ?_⟩)
      split
      · exact List.mem_cons_self
      · exact List.mem_cons_self
    | some host =>
      refine Or.inr (Or.inr ⟨host, hin, rfl, ?_⟩)
      have hne := (scanHostPath_host hhost).1
      rcases em (58 ∈ host) with hmem | hmem
      · simp only [Stack.use, portOf, hmem, ↓reduceIte]
        refine ⟨trivial, trivial, trivial, ?_⟩
        rw [scanUntil]
        cases host with
        | nil => exact absurd rfl hne
        | cons c host =>
          rcases eq_or_ne c 58 with rfl | hc
          · rfl
          · simp [hc]
      · simp only [Stack.use, portOf, hmem, ↓reduceIte]
        refine ⟨trivial, trivial, trivial, ?_⟩
        have hall : host.takeWhile (· ≠ 58) = host :=
          List.takeWhile_eq_self_iff.mpr (ne_of_not_mem hmem)
        have hfirst : host[0]? ≠ some 58 := fun h => hmem (List.mem_of_getElem? h)
        rw [hall, if_neg hfirst]
  · rw [if_neg (fun h => hin (strstr_isSome.mp h))]
    refine Or.inl ⟨hin, ?_, rfl⟩
    rw [Option.eq_none_iff_forall_ne_some]
    intro host hhost
    exact hin (scanHostPath_host hhost).2

/-- What is scanned begins with what the client sent. -/
theorem lineBuf_received (stack : Stack) : ∀ line, ∃ t, lineBuf stack line = received line ++ t
  | .line _ => ⟨[], (List.append_nil _).symm⟩
  | .eof => ⟨_, rfl⟩
  | .error bytes => cstr_append_exists bytes _

/-- The client's own tokens come first in what is scanned. -/
theorem scannedWords_of_sent (h : (sentWords fd).length = 3) :
    ∃ method uri version version', sentWords fd = [method, uri, version] ∧
      scannedWords stack fd = [method, uri, version'] := by
  obtain ⟨t, ht⟩ := lineBuf_received stack (rio_readlineb (rio_readinitb fd) MAXLINE).1
  obtain ⟨version', hwords⟩ := scanWords_append t h
  obtain ⟨method, uri, version, hsent⟩ := List.length_eq_three.mp h
  refine ⟨method, uri, version, version', hsent, ?_⟩
  rw [scannedWords, ht, hwords, ← sentWords, hsent]
  rfl

end Words

/-! ### Refusals -/

theorem replies_differ : clientText notImplemented ≠ clientText badRequest ∧
    clientText notImplemented ≠ [] ∧ clientText badRequest ≠ [] := by
  decide +kernel

theorem clienterror_quiet (errnum shortmsg longmsg : Bytes) :
    ∀ a ∈ clienterror errnum shortmsg longmsg, a.Quiet := by
  intro a ha
  unfold clienterror at ha
  simp only at ha
  split at ha
  · cases ha
  · split at ha
    · cases ha
    · rcases List.mem_pair.mp ha with rfl | rfl
      · trivial
      · trivial

theorem not_cached_iff {p : Proxy} {l : List Block} {uri : Bytes} (hok : CacheOk p.mem l) :
    ¬ Cached p uri ↔ ∀ x ∈ l, x.2.uri ≠ uri := by
  constructor
  · intro h x hx huri
    exact h ⟨l, hok.rep, x, hx, huri⟩
  · rintro h ⟨l', hrep, x, hx, huri⟩
    rw [hrep.unique hok.rep] at hx
    exact h x hx huri

/-- Where the run after a POST stops. -/
theorem post_stops {env : Env} {stack : Stack} {p : Proxy} {l : List Block} {uri : Bytes}
    (hok : CacheOk p.mem l) :
    ((∀ a ∈ (parseUri stack uri).2 ++ notImplemented, a.Quiet) ∧ (env.initFails = true ∨
      ((∀ x ∈ l, x.2.uri ≠ (stack.use .uri (parseUri stack uri).1.uri).1) ∧
        ∃ hostname port, (parseUri stack uri).1.hostname = some hostname ∧
          (parseUri stack uri).1.port = some port ∧ env.connects hostname port = false))) ↔
    (¬ str "://" <:+: uri ∧ env.initFails = true) ∨
      ∃ host, (scanHostPath uri).1 = some host ∧ (env.initFails = true ∨
        (host[0]? ≠ some 58 ∧ ¬ Cached p uri ∧
          env.connects (host.takeWhile (· ≠ 58)) (portOf host) = false)) := by
  have hreply : ∀ a ∈ notImplemented, a.Quiet := clienterror_quiet _ _ _
  rw [not_cached_iff hok]
  rcases parseUri_cases stack uri with ⟨hin, hhost, hparse⟩ | ⟨hin, hhost, hbad⟩ |
    ⟨host, hin, hhost, hacts, huri, hport, hname⟩
  · rw [hparse, hhost]
    simp only [List.nil_append]
    constructor
    · rintro ⟨-, hinit | ⟨-, hostname, port, hnone, -⟩⟩
      · exact Or.inl ⟨hin, hinit⟩
      · cases hnone
    · rintro (⟨-, hinit⟩ | ⟨host, hnone, -⟩)
      · exact ⟨hreply, Or.inl hinit⟩
      · cases hnone
  · rw [hhost]
    constructor
    · rintro ⟨hquiet, -⟩
      exact absurd (hquiet _ (List.mem_append_left _ hbad)) (by simp [Action.Quiet])
    · rintro (⟨hout, -⟩ | ⟨host, hnone, -⟩)
      · exact absurd hin hout
      · cases hnone
  · rw [hacts, huri, hport, hname, hhost]
    simp only [List.nil_append, Stack.use]
    constructor
    · rintro ⟨-, hinit | ⟨hmiss, hostname, port, hsome, hp, hconn⟩⟩
      · exact Or.inr ⟨host, rfl, Or.inl hinit⟩
      · split at hsome
        · cases hsome
        · rename_i hfirst
          obtain rfl := Option.some.inj hsome
          obtain rfl := Option.some.inj hp
          exact Or.inr ⟨host, rfl, Or.inr ⟨hfirst, hmiss, hconn⟩⟩
    · rintro (⟨hout, -⟩ | ⟨host', hsome, hinit | ⟨hfirst, hmiss, hconn⟩⟩)
      · exact absurd hin hout
      · exact ⟨hreply, Or.inl hinit⟩
      · obtain rfl := Option.some.inj hsome
        rw [if_neg hfirst]
        exact ⟨hreply, Or.inr ⟨hmiss, _, _, rfl, rfl, hconn⟩⟩

/-- A run that scanned a GET sends no error page. -/
theorem get_not_refused {env : Env} {stack : Stack} {fd : List ReadEv} {p : Proxy} {l : List Block}
    {uri version reply : Bytes} (hok : CacheOk p.mem l)
    (hscan : scannedWords stack fd = [str "GET", uri, version]) (hreply : reply ≠ []) :
    ¬ Refused (fun fuel => doit fuel env stack fd p) p reply := by
  rintro ⟨acts, hrun, htext, hquiet⟩
  obtain ⟨fuel, hfuel, hres⟩ := hrun.above (l.length + 1)
  obtain ⟨parsed, acts', hread, hcases⟩ := doit_inv hok hfuel hres
  have hsilent := read_request_silent hscan hread
  rcases hcases with ⟨-, rfl⟩ | hcount | ⟨a, ha, hnq⟩ | ⟨-, rfl, -⟩
  · exact hreply (htext.symm.trans hsilent)
  · exact hcount rfl
  · exact hnq (hquiet a ha)
  · rw [clientText_append, hsilent, clientText_use] at htext
    exact hreply htext.symm

/-- A rejected request is refused, and goes nowhere else, iff `doit` stops by itself. -/
theorem refused_iff_stops (env : Env) (stack : Stack) (fd : List ReadEv) {p : Proxy}
    (hp : sections.Reachable p) (hrej : Rejected fd) :
    Refused (fun fuel => doit fuel env stack fd p) p (errorReply fd) ↔ Stops env stack fd p := by
  obtain ⟨l, hok⟩ := cacheOk_reachable hp
  obtain ⟨hdiffer, hnot, hbad⟩ := replies_differ
  unfold Stops errorReply
  rcases Nat.decEq (scannedWords stack fd).length 3 with hlen | hlen
  · have hsent : (sentWords fd).length ≠ 3 := fun h => by
      obtain ⟨method, uri, version, version', -, hscan⟩ := @scannedWords_of_sent stack fd h
      rw [hscan] at hlen
      exact hlen rfl
    rw [if_pos hlen, if_neg hsent, refused_iff hok (read_request_malformed hlen)]
    constructor
    · rintro ⟨-, -, hinit | ⟨-, hostname, port, hhost, -⟩⟩
      · exact hinit
      · cases hhost
    · intro hinit
      exact ⟨rfl, clienterror_quiet _ _ _, Or.inl hinit⟩
  · obtain ⟨method, uri, version, hscan⟩ := List.length_eq_three.mp hlen
    rw [if_neg (not_not.mpr hlen)]
    rcases eq_or_ne method (str "GET") with rfl | hget
    · have hsent : (sentWords fd).length ≠ 3 := fun h => by
        obtain ⟨method, uri', version', _, hsent, hscan'⟩ := @scannedWords_of_sent stack fd h
        rw [hscan] at hscan'
        obtain ⟨rfl, -⟩ := List.cons.inj hscan'
        rcases hrej with hshort | hmethod
        · exact hshort h
        · exact hmethod (by rw [hsent]; rfl)
      rw [if_neg hsent]
      constructor
      · intro hrefused
        exact absurd hrefused (get_not_refused hok hscan hbad)
      · rintro ⟨h, -⟩
        exact absurd h hsent
    · rw [refused_iff hok (read_request_other hscan hget), clientText_append, clientText_parseUri,
        List.nil_append]
      rcases em ((sentWords fd).length = 3) with h | h
      · obtain ⟨method', uri', version', _, hsent, hscan'⟩ := @scannedWords_of_sent stack fd h
        rw [hscan] at hscan'
        obtain ⟨rfl, hrest⟩ := List.cons.inj hscan'
        obtain ⟨rfl, -⟩ := List.cons.inj hrest
        rw [if_pos h, hsent]
        rcases eq_or_ne method (str "POST") with rfl | hpost
        · rw [if_pos rfl, post_stops hok]
          constructor
          · rintro ⟨-, hstop⟩
            exact ⟨rfl, rfl, uri, rfl, hstop⟩
          · rintro ⟨-, -, uri', huri, hstop⟩
            obtain rfl := Option.some.inj huri
            exact ⟨rfl, hstop⟩
        · rw [if_neg hpost]
          constructor
          · rintro ⟨htext, -⟩
            exact absurd htext.symm hnot
          · rintro ⟨-, hmethod, -⟩
            exact absurd (Option.some.inj hmethod) hpost
      · rw [if_neg h]
        constructor
        · rintro ⟨htext, -⟩
          split at htext
          · exact absurd htext hdiffer
          · exact absurd htext.symm hbad
        · rintro ⟨hsent, -⟩
          exact absurd hsent h

/-- A system where everything succeeds and the server answers nothing. -/
def calmEnv : Env := ⟨false, fun _ _ => true, true, [], 4096⟩

/-- Here a line that is no request is refused if `pthread_mutex_init` fails, and not otherwise. -/
theorem refused_iff_stops_hello :
    ¬ Refused (fun fuel => doit fuel calmEnv .blank (arriving (str "hello\r\n")) boot) boot
      (errorReply (arriving (str "hello\r\n"))) ∧
    Refused (fun fuel => doit fuel { calmEnv with initFails := true } .blank
      (arriving (str "hello\r\n")) boot) boot (errorReply (arriving (str "hello\r\n"))) := by
  have hrej : Rejected (arriving (str "hello\r\n")) := Or.inl (by decide)
  have hshort : (scannedWords .blank (arriving (str "hello\r\n"))).length ≠ 3 := by decide
  rw [refused_iff_stops calmEnv .blank _ (System.reachable_init rfl) hrej,
    refused_iff_stops { calmEnv with initFails := true } .blank _ (System.reachable_init rfl) hrej,
    Stops, Stops, if_pos hshort, if_pos hshort]
  exact ⟨Bool.false_ne_true, rfl⟩

def postRequest : Bytes := str "POST http://h/ HTTP/1.1\r\n\r\n"

/-- A POST to a server that can be reached is answered and then forwarded all the same. -/
theorem post_not_refused : Rejected (arriving postRequest) ∧
    ¬ Refused (fun fuel => doit fuel calmEnv .blank (arriving postRequest) boot) boot
      (errorReply (arriving postRequest)) := by
  have hscan : scannedWords .blank (arriving postRequest) =
      [str "POST", str "http://h/", str "HTTP/1.1"] := by decide
  refine ⟨Or.inr (by decide), ?_⟩
  rw [refused_iff cacheOk_init (read_request_other hscan (by decide))]
  rintro ⟨-, -, hinit | ⟨-, hostname, port, -, -, hconn⟩⟩
  · cases hinit
  · cases hconn

end Labs.Http
