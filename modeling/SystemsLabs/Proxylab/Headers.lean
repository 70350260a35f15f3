import SystemsLabs.Proxylab.Request

/-! @lab proxylab | file:proxy.c (read_request) | scheme:text | main result:lines treated by name

    `read_request` classifies a header line by the first pattern that occurs anywhere in it, in the
    order `User-Agent`, `Proxy-Connection`, `Connection`, `Host` or `GET`. By name, a line is
    replaced, dropped or kept according to what stands before its colon. Along the code's order the
    code can only go wrong in one direction: it takes a pattern at least as early as the name's. So
    when the two requests are equal, counting the copies of each replacement, in that order, shows
    that every line was treated by its name (`kinds_eq`). -/

namespace Labs.Http
open Schemes

/-- `Name: value` and a line break; neither part breaks the line, and the name ends at its colon. -/
structure Header where
  name : Bytes
  value : Bytes
  nonempty : name ≠ []
  name_ok : 0 ∉ name ∧ 10 ∉ name ∧ 58 ∉ name
  value_ok : 10 ∉ value

def Header.line (h : Header) : Bytes := h.name ++ str ": " ++ h.value ++ str "\r\n"

/-- How a line is treated, in the order of the code's tests. -/
inductive Kind where
  | agent
  | proxyConnection
  | connection
  | drop
  | keep
  deriving DecidableEq, Repr

/-- What a line of a kind becomes. -/
def Kind.out : Kind → Bytes → Bytes
  | .agent, _ => user_agent_header
  | .proxyConnection, _ => proxy_connection_header
  | .connection, _ => connection_header
  | .drop, _ => []
  | .keep, line => line

/-- Treatment by field name. -/
def nameKind (name : Bytes) : Kind :=
  if name = str "User-Agent" then .agent
  else if name = str "Proxy-Connection" then .proxyConnection
  else if name = str "Connection" then .connection
  else if name = str "Host" then .drop
  else .keep

/-- Treatment by the code. -/
def codeKind (buf : Bytes) : Kind :=
  if (strstr buf (str "User-Agent")).isSome then .agent
  else if (strstr buf (str "Proxy-Connection")).isSome then .proxyConnection
  else if (strstr buf (str "Connection")).isSome then .connection
  else if (strstr buf (str "Host")).isSome || (strstr buf (str "GET")).isSome then .drop
  else .keep

/-- No pattern that the code looks for before the one of the line's name occurs in the line, none
    at all in a line with another name, and such a line has no NUL byte. -/
def Clear (h : Header) : Prop :=
  if h.name = str "User-Agent" then True
  else if h.name = str "Proxy-Connection" then ¬ str "User-Agent" <:+: cstr h.line
  else if h.name = str "Connection" then
    ¬ str "User-Agent" <:+: cstr h.line ∧ ¬ str "Proxy-Connection" <:+: cstr h.line
  else if h.name = str "Host" then
    ¬ str "User-Agent" <:+: cstr h.line ∧ ¬ str "Connection" <:+: cstr h.line
  else ¬ str "User-Agent" <:+: cstr h.line ∧ ¬ str "Connection" <:+: cstr h.line ∧
    ¬ str "Host" <:+: cstr h.line ∧ ¬ str "GET" <:+: cstr h.line ∧ 0 ∉ h.line

/-! ### One line -/

theorem rewriteHeader_eq (buf : Bytes) :
    rewriteHeader buf = if codeKind buf = .drop then none else some ((codeKind buf).out buf) := by
  unfold rewriteHeader codeKind
  split
  · rfl
  · split
    · rfl
    · split
      · rfl
      · split
        · rfl
        · rfl

/-- The code's treatment in terms of the patterns that occur. -/
theorem codeKind_cases (buf : Bytes) :
    (codeKind buf = .agent ∧ str "User-Agent" <:+: buf) ∨
    (codeKind buf = .proxyConnection ∧ ¬ str "User-Agent" <:+: buf ∧
      str "Proxy-Connection" <:+: buf) ∨
    (codeKind buf = .connection ∧ ¬ str "User-Agent" <:+: buf ∧
      ¬ str "Proxy-Connection" <:+: buf ∧ str "Connection" <:+: buf) ∨
    (codeKind buf = .drop ∧ ¬ str "User-Agent" <:+: buf ∧ ¬ str "Proxy-Connection" <:+: buf ∧
      ¬ str "Connection" <:+: buf ∧ (str "Host" <:+: buf ∨ str "GET" <:+: buf)) ∨
    (codeKind buf = .keep ∧ ¬ str "User-Agent" <:+: buf ∧ ¬ str "Proxy-Connection" <:+: buf ∧
      ¬ str "Connection" <:+: buf ∧ ¬ str "Host" <:+: buf ∧ ¬ str "GET" <:+: buf) := by
  simp only [← strstr_isSome]
  unfold codeKind
  split
  · simp_all
  · split
    · simp_all
    · split
      · simp_all
      · split
        · simp_all
        · simp_all

/-- A line holds its name, before any NUL byte. -/
theorem name_within (h : Header) : h.name <:+: cstr h.line := by
  rw [Header.line, List.append_assoc, List.append_assoc, cstr_append h.name_ok.1]
  exact (List.prefix_append _ _).isInfix

theorem connection_within {buf : Bytes} (h : str "Proxy-Connection" <:+: buf) :
    str "Connection" <:+: buf :=
  List.IsInfix.trans ⟨str "Proxy-", [], rfl⟩ h

theorem nameKind_cases (name : Bytes) :
    (nameKind name = .agent ∧ name = str "User-Agent") ∨
    (nameKind name = .proxyConnection ∧ name = str "Proxy-Connection") ∨
    (nameKind name = .connection ∧ name = str "Connection") ∨
    (nameKind name = .drop ∧ name = str "Host") ∨
    (nameKind name = .keep ∧ name ≠ str "User-Agent" ∧ name ≠ str "Proxy-Connection" ∧
      name ≠ str "Connection" ∧ name ≠ str "Host") := by
  unfold nameKind
  split
  · simp_all
  · split
    · simp_all
    · split
      · simp_all
      · split
        · simp_all
        · simp_all

def Header.codeKind (h : Header) : Kind := Http.codeKind (cstr h.line)

def Header.nameKind (h : Header) : Kind := Http.nameKind h.name

/-- The code never takes a later treatment than the name's. -/
theorem codeKind_le (h : Header) :
    (h.nameKind = .agent → h.codeKind = .agent) ∧
    (h.nameKind = .proxyConnection → h.codeKind = .agent ∨ h.codeKind = .proxyConnection) ∧
    (h.nameKind = .connection →
      h.codeKind = .agent ∨ h.codeKind = .proxyConnection ∨ h.codeKind = .connection) ∧
    (h.nameKind = .drop → h.codeKind ≠ .keep) := by
  have hin := name_within h
  have hcode := codeKind_cases (cstr h.line)
  have hname := nameKind_cases h.name
  simp only [Header.codeKind, Header.nameKind]
  grind

/-- A line is clear iff the code treats it by its name, and can copy it. -/
theorem clear_iff (h : Header) :
    Clear h ↔ h.codeKind = h.nameKind ∧ (h.nameKind = .keep → 0 ∉ h.line) := by
  have hin := name_within h
  have hcode := codeKind_cases (cstr h.line)
  have hconn := @connection_within (cstr h.line)
  simp only [Header.codeKind, Header.nameKind, Clear]
  rcases nameKind_cases h.name with ⟨hk, hn⟩ | ⟨hk, hn⟩ | ⟨hk, hn⟩ | ⟨hk, hn⟩ | ⟨hk, h₁, h₂, h₃, h₄⟩
  · rw [hk, if_pos hn]
    grind
  · rw [hk, hn, if_neg (by decide), if_pos rfl]
    grind
  · rw [hk, hn, if_neg (by decide), if_neg (by decide), if_pos rfl]
    grind
  · rw [hk, hn, if_neg (by decide), if_neg (by decide), if_neg (by decide), if_pos rfl]
    grind
  · rw [hk, if_neg h₁, if_neg h₂, if_neg h₃, if_neg h₄]
    grind

/-! ### Counting pieces -/

/-- A piece of text that is one line. -/
def IsLine (p : Bytes) : Prop := ∃ w, 10 ∉ w ∧ p = w ++ [10]

theorem line_inj {w v s t : Bytes} (hw : 10 ∉ w) (hv : 10 ∉ v)
    (h : w ++ 10 :: s = v ++ 10 :: t) : w = v ∧ s = t := by
  have hwv : w = v := by
    rw [← takeWhile_ne (s := s) hw, h, takeWhile_ne hv]
  subst hwv
  exact ⟨rfl, (List.cons.inj (List.append_cancel_left h)).2⟩

/-- Texts made of lines are equal iff the lines are. -/
theorem flatten_lines : ∀ {ps qs : List Bytes}, (∀ p ∈ ps, IsLine p) → (∀ q ∈ qs, IsLine q) →
    ps.flatten = qs.flatten → ps = qs
  | [], [], _, _, _ => rfl
  | [], q :: qs, _, hqs, h => by
      obtain ⟨w, -, rfl⟩ := hqs q (by simp)
      simp at h
  | p :: ps, [], hps, _, h => by
      obtain ⟨w, -, rfl⟩ := hps p (by simp)
      simp at h
  | p :: ps, q :: qs, hps, hqs, h => by
      obtain ⟨w, hw, rfl⟩ := hps p (by simp)
      obtain ⟨v, hv, rfl⟩ := hqs q (by simp)
      simp only [List.flatten_cons, List.append_assoc, List.singleton_append] at h
      obtain ⟨rfl, hrest⟩ := line_inj hw hv h
      rw [flatten_lines (fun p hp => hps p (List.mem_cons_of_mem _ hp))
        (fun q hq => hqs q (List.mem_cons_of_mem _ hq)) hrest]

/-- When one predicate implies another on a list and both hold equally often, they agree. -/
theorem agree_of_countP {α : Type} {p q : α → Prop} [DecidablePred p] [DecidablePred q] :
    ∀ {l : List α}, (∀ x ∈ l, p x → q x) → l.countP (p ·) = l.countP (q ·) → ∀ x ∈ l, q x → p x
  | [], _, _, x, hx, _ => by simp at hx
  | y :: l, hpq, hcount, x, hx, hq => by
      have hle : l.countP (p ·) ≤ l.countP (q ·) := List.countP_mono_left fun z hz hp =>
        by simpa using hpq z (List.mem_cons_of_mem _ hz) (by simpa using hp)
      have hy := hpq y (by simp)
      rw [List.countP_cons, List.countP_cons] at hcount
      have hsame : (q y → p y) ∧ l.countP (p ·) = l.countP (q ·) := by
        rcases em (p y) with hp | hp
        · have := hy hp
          simp_all
        · rcases em (q y) with hq' | hq'
          · simp [hp, hq'] at hcount
            omega
          · simp_all
      rcases List.mem_cons.mp hx with rfl | hx
      · exact hsame.1 hq
      · exact agree_of_countP (fun z hz => hpq z (List.mem_cons_of_mem _ hz)) hsame.2 x hx hq

/-! ### Equal requests treat equal lines equally -/

def Header.byCode (h : Header) : Bytes := h.codeKind.out (cstr h.line)

def Header.byName (h : Header) : Bytes := h.nameKind.out h.line

/-- A kind that replaces lines. -/
def Kind.fixed (k : Kind) : Prop := k = .agent ∨ k = .proxyConnection ∨ k = .connection

theorem isLine_fixed {k : Kind} (hk : k.fixed) : IsLine (k.out []) := by
  rcases hk with rfl | rfl | rfl
  · exact ⟨user_agent_header.dropLast, by decide, by decide⟩
  · exact ⟨proxy_connection_header.dropLast, by decide, by decide⟩
  · exact ⟨connection_header.dropLast, by decide, by decide⟩

theorem isLine_line (h : Header) : IsLine h.line := by
  refine ⟨h.name ++ str ": " ++ h.value ++ [13], ?_, ?_⟩
  · have hcolon : 10 ∉ str ": " := by decide
    simp only [List.mem_append, not_or]
    exact ⟨⟨⟨h.name_ok.2.1, hcolon⟩, h.value_ok⟩, by decide⟩
  · have hcrlf : str "\r\n" = [13] ++ [10] := by decide
    rw [Header.line, hcrlf, List.append_assoc _ [13] [10]]

theorem name_of_line (h : Header) : h.line.takeWhile (· ≠ 58) = h.name := by
  have hcolon : str ": " = 58 :: [32] := by decide
  rw [Header.line, hcolon, List.append_assoc, List.append_assoc, List.cons_append]
  exact takeWhile_ne h.name_ok.2.2

theorem out_inj {k c : Kind} (hk : k.fixed) (hc : c.fixed) (h : c.out [] = k.out []) : c = k := by
  revert h
  rcases hk with rfl | rfl | rfl <;> rcases hc with rfl | rfl | rfl <;> decide

/-- A treatment yields a replacement only by being the one that does. -/
theorem out_fixed_iff {k c : Kind} (hk : k.fixed) {t : Bytes} (ht : c = .keep → t ≠ k.out []) :
    c.out t = k.out [] ↔ c = k := by
  constructor
  · intro h
    cases c with
    | agent => exact out_inj hk (Or.inl rfl) h
    | proxyConnection => exact out_inj hk (Or.inr (Or.inl rfl)) h
    | connection => exact out_inj hk (Or.inr (Or.inr rfl)) h
    | drop =>
      obtain ⟨w, -, hw⟩ := isLine_fixed hk
      rw [← h] at hw
      simp [Kind.out] at hw
    | keep => exact absurd h (ht rfl)
  · rintro rfl
    rcases hk with rfl | rfl | rfl
    · rfl
    · rfl
    · rfl

theorem byCode_fixed {k : Kind} (hk : k.fixed) (h : Header) :
    h.byCode = k.out [] ↔ h.codeKind = k := by
  refine out_fixed_iff hk ?_
  intro hkeep heq
  have hself : Http.codeKind (k.out []) = k := by
    rcases hk with rfl | rfl | rfl
    · decide
    · decide
    · decide
  rw [Header.codeKind, heq, hself] at hkeep
  rcases hk with rfl | rfl | rfl <;> cases hkeep

theorem byName_fixed {k : Kind} (hk : k.fixed) (h : Header) :
    h.byName = k.out [] ↔ h.nameKind = k := by
  refine out_fixed_iff hk ?_
  intro hkeep heq
  have hself : Http.nameKind ((k.out []).takeWhile (· ≠ 58)) = k := by
    rcases hk with rfl | rfl | rfl
    · decide
    · decide
    · decide
  rw [Header.nameKind, ← name_of_line, heq, hself] at hkeep
  rcases hk with rfl | rfl | rfl <;> cases hkeep

theorem cstr_line_ne_nil (h : Header) : cstr h.line ≠ [] := by
  intro hnil
  have hin := name_within h
  rw [hnil, List.infix_nil] at hin
  exact h.nonempty hin

theorem line_ne_nil (h : Header) : h.line ≠ [] := by
  obtain ⟨w, -, hw⟩ := isLine_line h
  rw [hw]
  simp

theorem out_nil {k : Kind} {t : Bytes} (ht : t ≠ []) : k.out t = [] ↔ k = .drop := by
  cases k with
  | agent => exact ⟨fun h => absurd h (by decide : user_agent_header ≠ []), nofun⟩
  | proxyConnection => exact ⟨fun h => absurd h (by decide : proxy_connection_header ≠ []), nofun⟩
  | connection => exact ⟨fun h => absurd h (by decide : connection_header ≠ []), nofun⟩
  | drop => exact ⟨fun _ => rfl, fun _ => rfl⟩
  | keep => exact ⟨fun h => absurd h ht, nofun⟩

theorem isLine_out {k : Kind} {t : Bytes} (hne : k.out t ≠ []) (ht : k = .keep → IsLine t) :
    IsLine (k.out t) := by
  cases k with
  | agent => exact isLine_fixed (Or.inl rfl)
  | proxyConnection => exact isLine_fixed (Or.inr (Or.inl rfl))
  | connection => exact isLine_fixed (Or.inr (Or.inr rfl))
  | drop => exact absurd rfl hne
  | keep => exact ht rfl

/-- The code copies C strings, so its request has no NUL byte. -/
theorem zero_not_mem_byCode (h : Header) : 0 ∉ h.byCode := by
  rw [Header.byCode]
  cases h.codeKind with
  | agent => exact (by decide : 0 ∉ user_agent_header)
  | proxyConnection => exact (by decide : 0 ∉ proxy_connection_header)
  | connection => exact (by decide : 0 ∉ connection_header)
  | drop => exact (by decide : 0 ∉ ([] : Bytes))
  | keep => exact not_mem_cstr h.line

/-- Equal texts: every line the name keeps has no NUL byte. -/
theorem keep_clean {hs : List Header}
    (heq : (hs.map Header.byCode).flatten = (hs.map Header.byName).flatten) :
    ∀ h ∈ hs, h.nameKind = .keep → 0 ∉ h.line := by
  intro h hh hkeep hzero
  have hmem : 0 ∈ (hs.map Header.byName).flatten := by
    refine List.mem_flatten.mpr ⟨h.byName, List.mem_map_of_mem hh, ?_⟩
    rw [Header.byName, hkeep]
    exact hzero
  rw [← heq] at hmem
  obtain ⟨p, hp, hz⟩ := List.mem_flatten.mp hmem
  obtain ⟨h', -, rfl⟩ := List.mem_map.mp hp
  exact zero_not_mem_byCode h' hz

theorem nameKind_of_codeKind_keep {h : Header} (hc : h.codeKind = .keep) : h.nameKind = .keep := by
  have hle := codeKind_le h
  cases hk : h.nameKind <;> simp_all

/-- Equal texts: the nonempty pieces are the same. -/
theorem pieces_eq {hs : List Header}
    (heq : (hs.map Header.byCode).flatten = (hs.map Header.byName).flatten) :
    (hs.map Header.byCode).filter (· ≠ []) = (hs.map Header.byName).filter (· ≠ []) := by
  have hclean := keep_clean heq
  refine flatten_lines ?_ ?_ ?_
  · intro p hp
    obtain ⟨hp, hne⟩ := List.mem_filter.mp hp
    obtain ⟨h, hh, rfl⟩ := List.mem_map.mp hp
    refine isLine_out (of_decide_eq_true hne) ?_
    intro hc
    rw [cstr_of_not_mem (hclean h hh (nameKind_of_codeKind_keep hc))]
    exact isLine_line h
  · intro p hp
    obtain ⟨hp, hne⟩ := List.mem_filter.mp hp
    obtain ⟨h, hh, rfl⟩ := List.mem_map.mp hp
    exact isLine_out (of_decide_eq_true hne) fun _ => isLine_line h
  · rw [List.flatten_filter_ne_nil, List.flatten_filter_ne_nil, heq]

/-- Equal texts: any property holds of equally many nonempty pieces. -/
theorem count_pieces {hs : List Header} (P : Bytes → Prop) [DecidablePred P]
    (heq : (hs.map Header.byCode).flatten = (hs.map Header.byName).flatten) :
    hs.countP (fun h => P h.byCode ∧ h.byCode ≠ []) =
      hs.countP fun h => P h.byName ∧ h.byName ≠ [] := by
  have hcount := congrArg (List.countP (P ·)) (pieces_eq heq)
  rw [List.countP_filter, List.countP_filter, List.countP_map, List.countP_map] at hcount
  simpa [Function.comp_def] using hcount

/-- Equal texts: each replacement occurs equally often. -/
theorem count_fixed {hs : List Header} {k : Kind} (hk : k.fixed)
    (heq : (hs.map Header.byCode).flatten = (hs.map Header.byName).flatten) :
    hs.countP (fun h => h.codeKind = k) = hs.countP fun h => h.nameKind = k := by
  have hne : k.out [] ≠ [] := by
    obtain ⟨w, -, hw⟩ := isLine_fixed hk
    rw [hw]
    simp
  have hcode : ∀ h : Header, (h.byCode = k.out [] ∧ h.byCode ≠ []) ↔ h.codeKind = k := fun h =>
    ⟨fun hb => (byCode_fixed hk h).mp hb.1, fun hc => by
      have := (byCode_fixed hk h).mpr hc
      exact ⟨this, this ▸ hne⟩⟩
  have hname : ∀ h : Header, (h.byName = k.out [] ∧ h.byName ≠ []) ↔ h.nameKind = k := fun h =>
    ⟨fun hb => (byName_fixed hk h).mp hb.1, fun hc => by
      have := (byName_fixed hk h).mpr hc
      exact ⟨this, this ▸ hne⟩⟩
  simpa only [hcode, hname] using count_pieces (· = k.out []) heq

/-- Equal texts: equally many lines are dropped. -/
theorem count_drop {hs : List Header}
    (heq : (hs.map Header.byCode).flatten = (hs.map Header.byName).flatten) :
    hs.countP (fun h => h.codeKind ≠ .drop) = hs.countP fun h => h.nameKind ≠ .drop := by
  have hcode : ∀ h : Header, (True ∧ h.byCode ≠ []) ↔ h.codeKind ≠ .drop := fun h => by
    rw [true_and, ne_eq, Header.byCode, out_nil (cstr_line_ne_nil h)]
  have hname : ∀ h : Header, (True ∧ h.byName ≠ []) ↔ h.nameKind ≠ .drop := fun h => by
    rw [true_and, ne_eq, Header.byName, out_nil (line_ne_nil h)]
  simpa only [hcode, hname] using count_pieces (fun _ => True) heq

/-- Equal texts: every line is treated by its name. The counts are compared in the order of the
    code's tests, and each comparison removes one treatment from the next. -/
theorem kinds_eq {hs : List Header}
    (heq : (hs.map Header.byCode).flatten = (hs.map Header.byName).flatten) :
    ∀ h ∈ hs, h.codeKind = h.nameKind := by
  have hagent : ∀ h ∈ hs, h.codeKind = .agent → h.nameKind = .agent :=
    agree_of_countP (fun h _ => (codeKind_le h).1) (count_fixed (Or.inl rfl) heq).symm
  have hproxy : ∀ h ∈ hs, h.codeKind = .proxyConnection → h.nameKind = .proxyConnection := by
    refine agree_of_countP ?_ (count_fixed (Or.inr (Or.inl rfl)) heq).symm
    intro h hh hk
    have hle := (codeKind_le h).2.1 hk
    have ha := hagent h hh
    grind
  have hconn : ∀ h ∈ hs, h.codeKind = .connection → h.nameKind = .connection := by
    refine agree_of_countP ?_ (count_fixed (Or.inr (Or.inr rfl)) heq).symm
    intro h hh hk
    have hle := (codeKind_le h).2.2.1 hk
    have ha := hagent h hh
    have hp := hproxy h hh
    grind
  have hdrop : ∀ h ∈ hs, h.nameKind ≠ .drop → h.codeKind ≠ .drop := by
    refine agree_of_countP ?_ (count_drop heq)
    intro h hh hk hd
    have hle := (codeKind_le h).2.2.2 hd
    have ha := hagent h hh
    have hp := hproxy h hh
    have hc := hconn h hh
    cases hcode : h.codeKind <;> simp_all
  intro h hh
  have hkeep := @nameKind_of_codeKind_keep h
  have ha := hagent h hh
  have hp := hproxy h hh
  have hc := hconn h hh
  have hd := hdrop h hh
  cases hcode : h.codeKind <;> simp_all

end Labs.Http
