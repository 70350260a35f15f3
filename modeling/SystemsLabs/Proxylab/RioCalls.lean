import SystemsLabs.Proxylab.Rio

/-! @lab proxylab | file:csapp.c (rio package) | structure:buffered reader over a text |
    main result:mixed line and block reads

    Calls of `rio_readlineb` and `rio_readnb` on one `rio_t`, in any order. `textLine` and `textBlock`
    read from a plain text. Up to the first error the calls return what these return, and what is
    returned is the text, piece after piece. -/

namespace Labs.Http
variable {r : Rio} {t done : List UInt8} {b : Bool} {k n maxlen : ℕ}

/-- A line of a text, with room for `k` more bytes. `broken`: an error is behind the text. -/
def textLine (broken : Bool) : ℕ → List UInt8 → List UInt8 → Line × List UInt8
  | 0, done, t => (.line done, t)
  | _ + 1, done, [] => (if broken then .error done else if done = [] then .eof else .line done, [])
  | k + 1, done, c :: t =>
    if c = 10 then (.line (done ++ [c]), t) else textLine broken k (done ++ [c]) t

def textBlock (broken : Bool) (n : ℕ) (t : List UInt8) : Option (List UInt8) × List UInt8 :=
  if n ≤ t.length ∨ broken = false then (some (t.take n), t.drop n) else (none, [])

/-- What a reader has before it. -/
structure Shows (r : Rio) (t : List UInt8) (b : Bool) : Prop where
  bytes : r.bytes = t
  broken : r.Broken ↔ b = true

theorem shows_self (r : Rio) : Shows r r.bytes (decide r.Broken) := ⟨rfl, by simp⟩

def Line.failed : Line → Bool
  | .error _ => true
  | _ => false

theorem readLoop_shows : ∀ {k : ℕ} {done t : List UInt8} {r : Rio}, Shows r t b →
    ∃ r', readLoop k done r = ((textLine b k done t).1, r') ∧
      ((textLine b k done t).1.failed = false → Shows r' (textLine b k done t).2 b) := by
  intro k
  induction k with
  | zero =>
    intro done t r h
    exact ⟨r, rfl, fun _ => h⟩
  | succ k ih =>
    intro done t r h
    rw [readLoop]
    rcases hread : rio_read r 1 with ⟨got, r₁⟩
    rcases hread ▸ rio_read_cases r 0 with
      ⟨c, cs, _, hbytes, hlen, hbroken⟩ | ⟨_, hnil, hwhole, hnil', hwhole'⟩ | ⟨_, hnil, hbroken⟩
    · obtain rfl := List.length_eq_zero_iff.mp (Nat.le_zero.mp hlen)
      obtain rfl : t = c :: r₁.bytes := h.bytes.symm.trans hbytes
      have hrest : Shows r₁ r₁.bytes b := ⟨rfl, hbroken.trans h.broken⟩
      simp only [textLine]
      by_cases hc : c = 10
      · rw [if_pos hc, if_pos hc]
        exact ⟨r₁, rfl, fun _ => hrest⟩
      · rw [if_neg hc, if_neg hc]
        exact ih hrest
    · obtain rfl : t = [] := h.bytes.symm.trans hnil
      have hb : b = false := by simpa [hwhole] using h.broken
      subst hb
      have hrest : Shows r₁ [] false := ⟨hnil', by simp [hwhole']⟩
      refine ⟨r₁, ?_, fun _ => hrest⟩
      by_cases hdone : done = []
      · simp [textLine, hdone]
      · simp [textLine, hdone]
    · obtain rfl : t = [] := h.bytes.symm.trans hnil
      have hb : b = true := h.broken.mp hbroken
      subst hb
      exact ⟨r₁, rfl, fun hok => by cases hok⟩

/-- A line read is a line read from the text. -/
theorem rio_readlineb_shows (maxlen : ℕ) (h : Shows r t b) :
    ∃ r', rio_readlineb r maxlen = ((textLine b (maxlen - 1) [] t).1, r') ∧
      ((textLine b (maxlen - 1) [] t).1.failed = false →
        Shows r' (textLine b (maxlen - 1) [] t).2 b) := readLoop_shows h

theorem rio_readnb_shows (n : ℕ) (h : Shows r t b) :
    ∃ r', rio_readnb n r = ((textBlock b n t).1, r') ∧
      ((textBlock b n t).1.isSome → Shows r' (textBlock b n t).2 b) := by
  have hwhole : b = false ↔ ¬ r.Broken := by rw [h.broken, Bool.not_eq_true]
  by_cases hn : n ≤ t.length ∨ b = false
  · have hn' : n ≤ r.bytes.length ∨ ¬ r.Broken := by rwa [h.bytes, ← hwhole]
    obtain ⟨r', hread, hrest, hbroken⟩ := rio_readnb_some n hn'
    rw [textBlock, if_pos hn]
    rw [h.bytes] at hread hrest
    exact ⟨r', hread, fun _ => ⟨hrest, hbroken.trans h.broken⟩⟩
  · rw [not_or, Nat.not_le, hwhole, not_not] at hn
    obtain ⟨r', hread⟩ := rio_readnb_none n (by rw [h.bytes]; exact hn.1) hn.2
    rw [textBlock, if_neg (by rw [not_or, Nat.not_le, hwhole, not_not]; exact hn)]
    exact ⟨r', hread, fun hok => by cases hok⟩

/-! ### Any order of calls -/

inductive Call where
  | line (maxlen : ℕ)
  | block (n : ℕ)

/-- What a call returns. -/
inductive Got where
  | line (l : Line)
  | block (bytes : Option (List UInt8))
  deriving DecidableEq

def Got.bytes : Got → List UInt8
  | .line (.line bytes) => bytes
  | .block (some bytes) => bytes
  | _ => []

def Got.failed : Got → Bool
  | .line l => l.failed
  | .block bytes => bytes.isNone

def Call.run (r : Rio) : Call → Got × Rio
  | .line maxlen => ((rio_readlineb r maxlen).map .line id)
  | .block n => ((rio_readnb n r).map .block id)

/-- Calls one after the other, up to the first error. -/
def runCalls : Rio → List Call → List Got × Rio
  | r, [] => ([], r)
  | r, c :: cs =>
    let (got, r') := c.run r
    if got.failed then ([got], r') else ((runCalls r' cs).map (got :: ·) id)

def Call.text (b : Bool) (t : List UInt8) : Call → Got × List UInt8
  | .line maxlen => ((textLine b (maxlen - 1) [] t).map .line id)
  | .block n => ((textBlock b n t).map .block id)

def textCalls (b : Bool) : List UInt8 → List Call → List Got × List UInt8
  | t, [] => ([], t)
  | t, c :: cs =>
    let (got, t') := c.text b t
    if got.failed then ([got], t') else ((textCalls b t' cs).map (got :: ·) id)

theorem Call.run_shows (c : Call) (h : Shows r t b) : (c.run r).1 = (c.text b t).1 ∧
    ((c.text b t).1.failed = false → Shows (c.run r).2 (c.text b t).2 b) := by
  cases c with
  | line maxlen =>
    obtain ⟨r', hread, hrest⟩ := rio_readlineb_shows maxlen h
    rw [Call.run, hread]
    exact ⟨rfl, hrest⟩
  | block n =>
    obtain ⟨r', hread, hrest⟩ := rio_readnb_shows n h
    rw [Call.run, hread]
    refine ⟨rfl, fun hok => hrest ?_⟩
    change (textBlock b n t).1.isNone = false at hok
    rwa [Option.isNone_eq_false_iff] at hok

theorem runCalls_shows (cs : List Call) : ∀ {r : Rio} {t : List UInt8}, Shows r t b →
    (runCalls r cs).1 = (textCalls b t cs).1 ∧
      ((∀ got ∈ (textCalls b t cs).1, got.failed = false) →
        Shows (runCalls r cs).2 (textCalls b t cs).2 b) := by
  induction cs with
  | nil => exact fun h => ⟨rfl, fun _ => h⟩
  | cons c cs ih =>
    intro r t h
    obtain ⟨hgot, hrest⟩ := c.run_shows h
    simp only [runCalls, textCalls, hgot]
    by_cases hf : (c.text b t).1.failed = true
    · rw [if_pos hf, if_pos hf]
      exact ⟨rfl, fun hok => by simp [hf] at hok⟩
    · rw [if_neg hf, if_neg hf]
      obtain ⟨hgots, hrest'⟩ := ih (hrest (by simpa using hf))
      refine ⟨congrArg _ hgots, fun hok => hrest' fun got hin => ?_⟩
      exact hok got (List.mem_cons_of_mem _ hin)

/-! ### Nothing is lost -/

theorem textLine_split : ∀ {k : ℕ} {done t : List UInt8}, (textLine b k done t).1.failed = false →
    done ++ t = (Got.line (textLine b k done t).1).bytes ++ (textLine b k done t).2 := by
  intro k
  induction k with
  | zero => exact fun _ => rfl
  | succ k ih =>
    intro done t hok
    cases t with
    | nil =>
      rw [textLine] at hok ⊢
      cases b with
      | true => cases hok
      | false =>
        by_cases hdone : done = []
        · simp [hdone, Got.bytes]
        · simp [hdone, Got.bytes]
    | cons c t =>
      rw [textLine] at hok ⊢
      by_cases hc : c = 10
      · rw [if_pos hc]
        simp [Got.bytes]
      · rw [if_neg hc] at hok ⊢
        rw [← ih hok]
        simp

theorem Call.text_split (c : Call) (hok : (c.text b t).1.failed = false) :
    t = (c.text b t).1.bytes ++ (c.text b t).2 := by
  cases c with
  | line maxlen => exact textLine_split hok
  | block n =>
    change (textBlock b n t).1.isNone = false at hok
    change t = (Got.block (textBlock b n t).1).bytes ++ (textBlock b n t).2
    rw [textBlock] at hok ⊢
    split
    · exact (List.take_append_drop n t).symm
    · rename_i hn
      rw [if_neg hn] at hok
      cases hok

theorem textCalls_split (cs : List Call) : ∀ {t : List UInt8},
    (∀ got ∈ (textCalls b t cs).1, got.failed = false) →
      t = ((textCalls b t cs).1.map Got.bytes).flatten ++ (textCalls b t cs).2 := by
  induction cs with
  | nil => exact fun _ => rfl
  | cons c cs ih =>
    intro t hok
    rw [textCalls] at hok ⊢
    simp only at hok ⊢
    by_cases hf : (c.text b t).1.failed = true
    · rw [if_pos hf] at hok
      simp [hf] at hok
    · rw [if_neg hf] at hok ⊢
      have hmore := ih fun got hin => hok got (List.mem_cons_of_mem _ hin)
      simp only [Prod.map_fst, Prod.map_snd, id_eq, List.map_cons, List.flatten_cons]
      rw [List.append_assoc, ← hmore]
      exact c.text_split (by simpa using hf)

/-- The calls return the text that arrives before an error, piece after piece: however it arrives,
    the same pieces, and together they are what the reader has moved on by. -/
theorem calls_read_text (r : Rio) (cs : List Call) :
    (runCalls r cs).1 = (textCalls (decide r.Broken) r.bytes cs).1 ∧
      ((∀ got ∈ (runCalls r cs).1, got.failed = false) →
        r.bytes = ((runCalls r cs).1.map Got.bytes).flatten ++ (runCalls r cs).2.bytes ∧
          ((runCalls r cs).2.Broken ↔ r.Broken)) := by
  obtain ⟨hgots, hrest⟩ := @runCalls_shows (decide r.Broken) cs _ _ (shows_self r)
  refine ⟨hgots, fun hok => ?_⟩
  rw [hgots] at hok ⊢
  have hshows := hrest hok
  rw [hshows.bytes, hshows.broken, decide_eq_true_iff]
  exact ⟨textCalls_split cs hok, Iff.rfl⟩

end Labs.Http
