import SystemsLabs.Proxylab.CacheSections

/-! @lab proxylab | file:proxy.c (doit) | scheme:transition | main result:one copy, genuine bytes

    Any number of `doit` threads, each serving one GET request, interleaved section by section. The
    lookup section copies a hit out into the thread's own `response` before the mutex is released;
    the origin transfer is outside the lock, so by the time a thread inserts, others may have missed,
    inserted and evicted the same URI any number of times. `log` is a ghost: what each thread
    received from the origin and what it sent from the cache, latest first. -/

namespace Labs.WebCache
open Schemes

/-- Where a thread is in `doit`; `response` is its local buffer. -/
inductive Pc where
  | start
  | copied (response : Bytes)
  | missed
  | fetched (response : Bytes)
  | finished
  deriving DecidableEq, Repr

inductive Event (T : Type) where
  | received (t : T) (uri response : Bytes)
  | sent (t : T) (uri response : Bytes)

structure Server (T : Type) where
  proxy : Proxy
  pc : T → Pc
  log : List (Event T)

/-- What a thread does next. -/
inductive Act where
  | lookup (served : Option Bytes)
  | send
  | transfer (response : Bytes)
  | giveUp
  | insert (elem : Ptr)

section Threads
variable {T : Type} [DecidableEq T]

def Server.goto (s : Server T) (t : T) (c : Pc) : Server T :=
  { s with pc := Function.update s.pc t c }

/-- One step of thread `t`, whose request is for `uri t`. `giveUp`: the connection to the origin
    fails, or the transfer leaves `size` at 0. -/
def doitStep (uri : T → Bytes) (s : Server T) : T × Act → Server T → Prop
  | (t, .lookup served), s' => s.pc t = .start ∧ ∃ p',
    (Section.lookup (uri t) served).Step s.proxy p' ∧
    s' = { s.goto t (match served with | some response => .copied response | none => .missed) with
            proxy := p' }
  | (t, .send), s' => ∃ response, s.pc t = .copied response ∧
    s' = { s.goto t .finished with log := .sent t (uri t) response :: s.log }
  | (t, .transfer response), s' => s.pc t = .missed ∧
    1 ≤ response.length ∧ response.length ≤ MAX_OBJECT_SIZE ∧
    s' = { s.goto t (.fetched response) with log := .received t (uri t) response :: s.log }
  | (t, .giveUp), s' => s.pc t = .missed ∧ s' = s.goto t .finished
  | (t, .insert elem), s' => ∃ response p', s.pc t = .fetched response ∧
    (Section.insert (uri t) response elem).Step s.proxy p' ∧
    s' = { s.goto t .finished with proxy := p' }

/-- The threads on a fresh cache; the request of each thread is given. -/
def threads (uri : T → Bytes) : System (Server T) (T × Act) where
  init s := s = ⟨boot, fun _ => .start, []⟩
  step := doitStep uri

/-- Some thread received this response for this URI. -/
def FromOrigin (log : List (Event T)) (uri response : Bytes) : Prop :=
  ∃ t, Event.received t uri response ∈ log

omit [DecidableEq T] in
theorem FromOrigin.cons {log : List (Event T)} {uri response : Bytes}
    (h : FromOrigin log uri response) (e : Event T) : FromOrigin (e :: log) uri response := by
  obtain ⟨t, ht⟩ := h
  exact ⟨t, List.mem_cons_of_mem e ht⟩

/-- Every response on the wire was received from the origin earlier. -/
def WireOk (log : List (Event T)) : Prop := ∀ later earlier t uri response,
  log = later ++ .sent t uri response :: earlier → FromOrigin earlier uri response

/-- Nothing but origin responses: in the cache, in the threads' buffers and on the wire. -/
structure OnlyOrigin (uri : T → Bytes) (s : Server T) : Prop where
  cache : ∃ l, CacheOk s.proxy.mem l ∧ ∀ x ∈ l, FromOrigin s.log x.2.uri x.2.obj
  copied : ∀ t response, s.pc t = .copied response → FromOrigin s.log (uri t) response
  fetched : ∀ t response, s.pc t = .fetched response → FromOrigin s.log (uri t) response
  wire : WireOk s.log

omit [DecidableEq T] in
theorem WireOk.cons {log : List (Event T)} {e : Event T} (h : WireOk log)
    (he : ∀ t uri response, e = .sent t uri response → FromOrigin log uri response) :
    WireOk (e :: log) := by
  rintro later earlier t uri response heq
  cases later with
  | nil =>
    obtain ⟨rfl, rfl⟩ := List.cons.inj heq
    exact he t uri response rfl
  | cons e' later => exact h later earlier t uri response (List.cons.inj heq).2

theorem goto_pc {s : Server T} {t t' : T} {c d : Pc} (h : (s.goto t c).pc t' = d) :
    (t' = t ∧ c = d) ∨ s.pc t' = d := by
  rcases eq_or_ne t' t with rfl | hne
  · exact Or.inl ⟨rfl, by simpa [Server.goto] using h⟩
  · exact Or.inr (by simpa [Server.goto, hne] using h)

theorem goto_other {s : Server T} {t t' : T} {c d : Pc} (h : (s.goto t c).pc t' = d)
    (hne : c ≠ d) : s.pc t' = d :=
  (goto_pc h).resolve_left fun h => hne h.2

section Step
variable {uri : T → Bytes} {s s' : Server T} {t : T}

theorem onlyOrigin_lookup {served : Option Bytes} (h : OnlyOrigin uri s)
    (hstep : doitStep uri s (t, .lookup served) s') : OnlyOrigin uri s' := by
  obtain ⟨-, p', hsect, rfl⟩ := hstep
  obtain ⟨l, hok, hall⟩ := h.cache
  rcases lookup_inv hok hsect with ⟨rfl, rfl, -⟩ | ⟨l₁, x, l₂, rfl, hu, rfl, -, hok'⟩
  · -- a miss: neither cache nor log changes
    exact ⟨⟨l, hok, hall⟩, fun t' r hpc => h.copied t' r (goto_other hpc nofun),
      fun t' r hpc => h.fetched t' r (goto_other hpc nofun), h.wire⟩
  · -- a hit: the buffer gets the block's object, the block a new age
    refine ⟨⟨_, hok', fun y hy => ?_⟩, fun t' r hpc => ?_,
      fun t' r hpc => h.fetched t' r (goto_other hpc nofun), h.wire⟩
    · rw [List.mem_append, List.mem_cons] at hy
      rcases hy with hy | rfl | hy
      · exact hall y (by simp [hy])
      · exact hall x (by simp)
      · exact hall y (by simp [hy])
    · rcases goto_pc hpc with ⟨rfl, hc⟩ | hpc
      · obtain rfl := Pc.copied.inj hc
        rw [← hu]
        exact hall x (by simp)
      · exact h.copied t' r hpc

theorem onlyOrigin_insert {elem : Ptr} (h : OnlyOrigin uri s)
    (hstep : doitStep uri s (t, .insert elem) s') : OnlyOrigin uri s' := by
  obtain ⟨response, p', hpc, ⟨hsize, -, hsect⟩, rfl⟩ := hstep
  obtain ⟨l, hok, hall⟩ := h.cache
  have hcache : ∃ l, CacheOk p'.mem l ∧ ∀ x ∈ l, FromOrigin s.log x.2.uri x.2.obj := by
    rcases insert_inv hok hsize hsect with ⟨rfl, -⟩ | ⟨l', hsub, -, -, hok'⟩
    · exact ⟨l, hok, hall⟩
    · refine ⟨_, hok', fun x hx => ?_⟩
      rcases List.mem_cons.mp hx with rfl | hx
      · exact h.fetched t response hpc
      · exact hall x (hsub.subset hx)
  exact ⟨hcache, fun t' r hpc => h.copied t' r (goto_other hpc nofun),
    fun t' r hpc => h.fetched t' r (goto_other hpc nofun), h.wire⟩

theorem onlyOrigin_transfer {response : Bytes} (h : OnlyOrigin uri s)
    (hstep : doitStep uri s (t, .transfer response) s') : OnlyOrigin uri s' := by
  obtain ⟨-, -, -, rfl⟩ := hstep
  obtain ⟨l, hok, hall⟩ := h.cache
  refine ⟨⟨l, hok, fun x hx => (hall x hx).cons _⟩,
    fun t' r hpc => (h.copied t' r (goto_other hpc nofun)).cons _, fun t' r hpc => ?_,
    h.wire.cons fun _ _ _ he => by cases he⟩
  rcases goto_pc hpc with ⟨rfl, hc⟩ | hpc
  · obtain rfl := Pc.fetched.inj hc
    exact ⟨t', List.mem_cons_self⟩
  · exact (h.fetched t' r hpc).cons _

theorem onlyOrigin_send (h : OnlyOrigin uri s) (hstep : doitStep uri s (t, .send) s') :
    OnlyOrigin uri s' := by
  obtain ⟨response, hpc, rfl⟩ := hstep
  obtain ⟨l, hok, hall⟩ := h.cache
  refine ⟨⟨l, hok, fun x hx => (hall x hx).cons _⟩,
    fun t' r hpc' => (h.copied t' r (goto_other hpc' nofun)).cons _,
    fun t' r hpc' => (h.fetched t' r (goto_other hpc' nofun)).cons _,
    h.wire.cons fun t' u r he => ?_⟩
  obtain ⟨rfl, rfl, rfl⟩ := Event.sent.inj he
  exact h.copied t response hpc

theorem onlyOrigin_giveUp (h : OnlyOrigin uri s) (hstep : doitStep uri s (t, .giveUp) s') :
    OnlyOrigin uri s' := by
  obtain ⟨-, rfl⟩ := hstep
  exact ⟨h.cache, fun t' r hpc => h.copied t' r (goto_other hpc nofun),
    fun t' r hpc => h.fetched t' r (goto_other hpc nofun), h.wire⟩

theorem onlyOrigin_reachable (h : (threads uri).Reachable s) : OnlyOrigin uri s := by
  refine System.reachable_of_step (P := OnlyOrigin uri) ?_ ?_ h
  · rintro s rfl
    refine ⟨⟨[], cacheOk_init, by simp⟩, by simp, by simp, ?_⟩
    rintro later earlier t u response heq
    simp at heq
  · rintro s ⟨t, a⟩ s' hinv hstep
    cases a with
    | lookup served => exact onlyOrigin_lookup hinv hstep
    | send => exact onlyOrigin_send hinv hstep
    | transfer response => exact onlyOrigin_transfer hinv hstep
    | giveUp => exact onlyOrigin_giveUp hinv hstep
    | insert elem => exact onlyOrigin_insert hinv hstep

/-- In every state the threads reach, the cache is the list of some nodes and of no others, linked
    both ways. No URI has two of them, each holds what some thread received from the origin, and
    whatever a thread sent from the cache some thread had received whole for the same URI before. -/
theorem one_copy_genuine_bytes (h : (threads uri).Reachable s) :
    (∃ l, Rep s.proxy.mem l ∧ (∀ l', Rep s.proxy.mem l' → l' = l) ∧ (l.map (·.2.uri)).Nodup ∧
      ∀ x ∈ l, ∃ t, Event.received t x.2.uri x.2.obj ∈ s.log) ∧
    ∀ later earlier t u response, s.log = later ++ .sent t u response :: earlier →
      ∃ t', Event.received t' u response ∈ earlier := by
  have hinv := onlyOrigin_reachable h
  obtain ⟨l, hok, horigin⟩ := hinv.cache
  exact ⟨⟨l, hok.rep, fun l' hr => hr.unique hok.rep, hok.keys, horigin⟩, hinv.wire⟩

end Step

/-- Two threads, one URI: the first misses, fetches and inserts, the second is served the copy. -/
theorem one_copy_genuine_bytes_hit : ∃ s : Server Bool,
    s.log = [.sent true [97] [7], .received false [97] [7]] ∧
    (∃ l, Rep s.proxy.mem l ∧ l.length = 1 ∧ (l.map (·.2.uri)).Nodup ∧
      ∀ x ∈ l, ∃ t, Event.received t x.2.uri x.2.obj ∈ s.log) ∧
    ∃ t', Event.received t' [97] [7] ∈ [Event.received false [97] [7]] := by
  obtain ⟨p₁, hins, -, hok₁⟩ := insert_step (p := boot) cacheOk_init [97] [7] 16 (by decide)
    (by simp) (by decide) (by decide) (by simp)
  have hok₁' : CacheOk p₁.mem ([] ++ (16, entry [97] [7] 1) :: []) := hok₁
  obtain ⟨p₂, hhit, -, hok₂⟩ := hit_step hok₁'
  have hrun : (threads fun _ : Bool => [97]).Reachable _ :=
    ⟨_, [(false, .lookup none), (false, .transfer [7]), (false, .insert 16),
      (true, .lookup (some [7])), (true, .send)], rfl,
      .cons ⟨rfl, boot, miss_step cacheOk_init (by simp), rfl⟩ <|
      .cons ⟨rfl, by decide, by decide, rfl⟩ <|
      .cons ⟨[7], p₁, rfl, hins, rfl⟩ <|
      .cons ⟨rfl, p₂, hhit, rfl⟩ <|
      .single ⟨[7], rfl, rfl⟩⟩
  obtain ⟨s, h, hlog, rfl⟩ : ∃ s : Server Bool, (threads fun _ : Bool => [97]).Reachable s ∧
    s.log = [.sent true [97] [7], .received false [97] [7]] ∧ s.proxy = p₂ := ⟨_, hrun, rfl, rfl⟩
  obtain ⟨⟨l, hrep, hunique, hkeys, horigin⟩, hwire⟩ := one_copy_genuine_bytes h
  have hlen : l.length = 1 := by
    rw [← hunique _ hok₂.rep]
    rfl
  exact ⟨s, hlog, ⟨l, hrep, hlen, hkeys, horigin⟩, hwire [] _ true [97] [7] hlog⟩

end Threads

end Labs.WebCache
