import Mathlib.Data.List.Nodup
import Mathlib.Logic.Function.Basic
import Mathlib.Tactic.Common

/-! @scheme heap | structure:linked segments in a heap of blocks | used by:pointer programs

    A heap maps addresses to the blocks allocated there. A read through a pointer that is not
    allocated (`NULL`, never allocated, or freed) stops the program with a `fault`; a loop that needs
    more steps than its fuel stops with `fuel`, so a result `ok` is always the result of a
    terminating run that dereferenced live blocks only. `Seg` and `DSeg` describe singly and doubly
    linked segments by the list of blocks they visit; both split at any node, and both are framed by
    the addresses they visit. -/

namespace Schemes

/-- Why a run ends without a result: invalid dereference, loop out of fuel, process exit. -/
inductive Stop where
  | fault
  | fuel
  | exit
  deriving DecidableEq, Repr

/-- Blocks by address. -/
abbrev Heap (α β : Type*) := α → Option β

namespace Heap
variable {α β : Type*} [DecidableEq α] {h : Heap α β} {a b : α} {x : β}

def put (h : Heap α β) (a : α) (x : β) : Heap α β := Function.update h a (some x)

def del (h : Heap α β) (a : α) : Heap α β := Function.update h a none

/-- Dereference. -/
def get (h : Heap α β) (a : α) : Except Stop β :=
  match h a with
  | some x => .ok x
  | none => .error .fault

@[simp] theorem put_self : h.put a x a = some x := Function.update_self ..

@[simp] theorem put_of_ne (hne : b ≠ a) : h.put a x b = h b := Function.update_of_ne hne ..

@[simp] theorem del_self : h.del a a = none := Function.update_self ..

@[simp] theorem del_of_ne (hne : b ≠ a) : h.del a b = h b := Function.update_of_ne hne ..

theorem put_put {y : β} : (h.put a x).put a y = h.put a y := Function.update_idem ..

theorem put_isSome : (h.put a x b).isSome ↔ b = a ∨ (h b).isSome := by
  rcases eq_or_ne b a with rfl | hne
  · simp
  · simp [hne]

theorem put_isSome_of_live (ha : (h a).isSome) : (h.put a x b).isSome ↔ (h b).isSome := by
  rw [put_isSome]
  exact ⟨fun hb => hb.elim (fun hb => hb ▸ ha) id, Or.inr⟩

theorem del_isSome : (h.del a b).isSome ↔ b ≠ a ∧ (h b).isSome := by
  rcases eq_or_ne b a with rfl | hne
  · simp
  · simp [hne]

/-- Assignment through a pointer: change the block it points to. -/
def upd (h : Heap α β) (a : α) (f : β → β) : Except Stop (Heap α β) :=
  match h a with
  | some x => .ok (h.put a (f x))
  | none => .error .fault

theorem upd_of_eq {f : β → β} (hx : h a = some x) : h.upd a f = .ok (h.put a (f x)) := by
  simp [upd, hx]

omit [DecidableEq α] in
theorem get_of_eq (hx : h a = some x) : h.get a = .ok x := by simp [get, hx]

end Heap

section Run
variable {γ δ : Type}

@[simp] theorem ok_bind (a : γ) (k : γ → Except Stop δ) : (Except.ok a >>= k) = k a := rfl

@[simp] theorem error_bind (e : Stop) (k : γ → Except Stop δ) :
    ((Except.error e : Except Stop γ) >>= k) = .error e := rfl

/-- A sequence that succeeds succeeds part by part. -/
theorem bind_ok {x : Except Stop γ} {k : γ → Except Stop δ} {b : δ} (h : (x >>= k) = .ok b) :
    ∃ a, x = .ok a ∧ k a = .ok b := by
  cases x with
  | error e => cases h
  | ok a => exact ⟨a, rfl, h⟩

/-- Whatever the fuel, from some amount on, the run ends with `r`. -/
def Converges (f : ℕ → Except Stop γ) (r : γ) : Prop := ∃ N, ∀ fuel, N ≤ fuel → f fuel = .ok r

/-- A run whose first unit of fuel leads to a convergent one converges with it. -/
theorem Converges.succ {f g : ℕ → Except Stop γ} {r : γ} (h : Converges g r)
    (hstep : ∀ k, f (k + 1) = g k) : Converges f r := by
  obtain ⟨N, hN⟩ := h
  refine ⟨N + 1, fun fuel hfuel => ?_⟩
  cases fuel with
  | zero => exact absurd hfuel (Nat.not_succ_le_zero N)
  | succ k => exact (hstep k).trans (hN k (Nat.le_of_succ_le_succ hfuel))

theorem Converges.const {r : γ} : Converges (fun _ => .ok r) r := ⟨0, fun _ _ => rfl⟩

/-- A convergent run ends with its result at some fuel above any bound. -/
theorem Converges.above {f : ℕ → Except Stop γ} {r : γ} (h : Converges f r) (M : ℕ) :
    ∃ fuel, M ≤ fuel ∧ f fuel = .ok r := by
  obtain ⟨N, hN⟩ := h
  exact ⟨max N M, Nat.le_max_right N M, hN _ (Nat.le_max_left N M)⟩

/-- If more fuel changes no result, one run that ends is enough. -/
theorem Converges.of_ok {f : ℕ → Except Stop γ} {r : γ}
    (hmore : ∀ k, f k = .ok r → f (k + 1) = .ok r) {k : ℕ} (h : f k = .ok r) : Converges f r := by
  refine ⟨k, fun fuel hfuel => ?_⟩
  induction hfuel with
  | refl => exact h
  | step _ ih => exact hmore _ ih

theorem Converges.unique {f : ℕ → Except Stop γ} {r r' : γ} (h : Converges f r)
    (h' : Converges f r') : r = r' := by
  obtain ⟨N, hN⟩ := h
  obtain ⟨fuel, hfuel, hrun⟩ := h'.above N
  exact Except.ok.inj ((hN fuel hfuel).symm.trans hrun)

end Run

/-! ### Singly linked segments -/

section Seg
variable {α β ε : Type*} {view : β → Option (ε × α)} {h h' : Heap α β}

/-- From `p`, following links, the blocks at the addresses of `l` are visited in order, and the last
    link is `q`. `view` reads a block's payload and link. -/
def Seg (view : β → Option (ε × α)) (h : Heap α β) : α → List (α × ε) → α → Prop
  | p, [], q => p = q
  | p, (a, e) :: l, q =>
    p = a ∧ ∃ x n, h a = some x ∧ view x = some (e, n) ∧ Seg view h n l q

theorem Seg.append {l₁ l₂ : List (α × ε)} {p q : α} :
    Seg view h p (l₁ ++ l₂) q ↔ ∃ m, Seg view h p l₁ m ∧ Seg view h m l₂ q := by
  induction l₁ generalizing p with
  | nil => exact ⟨fun hs => ⟨p, rfl, hs⟩, fun ⟨m, hm, hs⟩ => by rw [Seg] at hm; rw [hm]; exact hs⟩
  | cons c l₁ ih =>
    obtain ⟨a, e⟩ := c
    simp only [List.cons_append, Seg, ih]
    constructor
    · rintro ⟨rfl, x, n, hx, hv, m, h₁, h₂⟩
      exact ⟨m, ⟨rfl, x, n, hx, hv, h₁⟩, h₂⟩
    · rintro ⟨m, ⟨rfl, x, n, hx, hv, h₁⟩, h₂⟩
      exact ⟨rfl, x, n, hx, hv, m, h₁, h₂⟩

/-- A segment depends only on the blocks it visits. -/
theorem Seg.congr {l : List (α × ε)} {p q : α} (hs : Seg view h p l q)
    (heq : ∀ a ∈ l.map Prod.fst, h' a = h a) : Seg view h' p l q := by
  induction l generalizing p with
  | nil => exact hs
  | cons c l ih =>
    obtain ⟨a, e⟩ := c
    obtain ⟨rfl, x, n, hx, hv, hs⟩ := hs
    refine ⟨rfl, x, n, by rw [heq _ (by simp), hx], hv, ih hs fun a ha => heq a ?_⟩
    rw [List.map_cons]
    exact List.mem_cons_of_mem _ ha

/-- A heap determines the segment up to an address outside it. -/
theorem Seg.unique {l l' : List (α × ε)} {p q : α} (hs : Seg view h p l q) (hs' : Seg view h p l' q)
    (hout : q ∉ l.map Prod.fst) (hout' : q ∉ l'.map Prod.fst) : l = l' := by
  induction l generalizing p l' with
  | nil =>
    cases l' with
    | nil => rfl
    | cons c l' =>
      obtain rfl : p = q := hs
      exact absurd (by rw [hs'.1]; simp) hout'
  | cons c l ih =>
    obtain ⟨a, e⟩ := c
    cases l' with
    | nil =>
      obtain rfl : p = q := hs'
      exact absurd (by rw [hs.1]; simp) hout
    | cons c' l' =>
      obtain ⟨a', e'⟩ := c'
      obtain ⟨rfl, x, n, hx, hv, hs⟩ := hs
      obtain ⟨rfl, x', n', hx', hv', hs'⟩ := hs'
      obtain rfl : x = x' := Option.some.inj (hx.symm.trans hx')
      obtain ⟨rfl, rfl⟩ := Prod.mk.inj (Option.some.inj (hv.symm.trans hv'))
      rw [List.map_cons, List.mem_cons, not_or] at hout hout'
      rw [ih hs hs' hout.2 hout'.2]

/-- No block is visited twice on the way to an address outside the segment. -/
theorem Seg.nodup {l : List (α × ε)} {p q : α} (hs : Seg view h p l q) (hout : q ∉ l.map Prod.fst) :
    (l.map Prod.fst).Nodup := by
  induction l generalizing p with
  | nil => exact List.nodup_nil
  | cons c l ih =>
    obtain ⟨a, e⟩ := c
    have hout' := hout
    rw [List.map_cons, List.mem_cons, not_or] at hout'
    have hwhole := hs
    obtain ⟨rfl, x, n, hx, hv, hs⟩ := hs
    refine List.nodup_cons.mpr ⟨fun hmem => ?_, ih hs hout'.2⟩
    obtain ⟨⟨b, e'⟩, hc, rfl⟩ := List.mem_map.mp hmem
    obtain ⟨l₁, l₂, rfl⟩ := List.append_of_mem hc
    obtain ⟨m, -, hback⟩ := Seg.append.mp hs
    obtain rfl : m = b := hback.1
    -- The walk from the second visit is as long as the walk from the first.
    have heq := Seg.unique hwhole hback hout fun hq => hout'.2 (by
      rw [List.map_append]
      exact List.mem_append_right _ hq)
    have hlen := congrArg List.length heq
    simp only [List.length_cons, List.length_append] at hlen
    omega

/-- Where the payload and the link make up the whole block, two heaps with the same segment agree
    on it. -/
theorem Seg.agree {l : List (α × ε)} {p q : α}
    (hview : ∀ x y c, view x = some c → view y = some c → x = y)
    (hs : Seg view h p l q) (hs' : Seg view h' p l q) : ∀ a ∈ l.map Prod.fst, h' a = h a := by
  induction l generalizing p with
  | nil => simp
  | cons c l ih =>
    obtain ⟨a, e⟩ := c
    obtain ⟨rfl, x, n, hx, hv, hs⟩ := hs
    obtain ⟨-, x', n', hx', hv', hs'⟩ := hs'
    obtain rfl : n = n' := by
      cases l with
      | nil => exact Eq.trans hs (Eq.symm hs')
      | cons c l => exact hs.1.trans hs'.1.symm
    intro b hb
    rcases List.mem_cons.mp hb with rfl | hb
    · rw [hx, hx', hview x' x _ hv' hv]
    · exact ih hs hs' b hb

end Seg

/-! ### Doubly linked segments -/

section DSeg
variable {α β ε : Type*} {view : β → α × ε × α} {h h' : Heap α β}

/-- Doubly linked segment over `l`: entered at `p` from the block `prev`, left from `last` to `nxt`.
    `view` reads a block's back link, payload and forward link. -/
def DSeg (view : β → α × ε × α) (h : Heap α β) : α → α → List (α × ε) → α → α → Prop
  | prev, p, [], last, nxt => prev = last ∧ p = nxt
  | prev, p, (a, e) :: l, last, nxt =>
    p = a ∧ ∃ x n, h a = some x ∧ view x = (prev, e, n) ∧ DSeg view h a n l last nxt

theorem DSeg.append {l₁ l₂ : List (α × ε)} {prev p last nxt : α} :
    DSeg view h prev p (l₁ ++ l₂) last nxt ↔
      ∃ m q, DSeg view h prev p l₁ m q ∧ DSeg view h m q l₂ last nxt := by
  induction l₁ generalizing prev p with
  | nil =>
    refine ⟨fun hs => ⟨prev, p, ⟨rfl, rfl⟩, hs⟩, ?_⟩
    rintro ⟨m, q, ⟨rfl, rfl⟩, hs⟩
    exact hs
  | cons c l₁ ih =>
    obtain ⟨a, e⟩ := c
    simp only [List.cons_append, DSeg, ih]
    constructor
    · rintro ⟨rfl, x, n, hx, hv, m, q, h₁, h₂⟩
      exact ⟨m, q, ⟨rfl, x, n, hx, hv, h₁⟩, h₂⟩
    · rintro ⟨m, q, ⟨rfl, x, n, hx, hv, h₁⟩, h₂⟩
      exact ⟨rfl, x, n, hx, hv, m, q, h₁, h₂⟩

theorem DSeg.congr {l : List (α × ε)} {prev p last nxt : α} (hs : DSeg view h prev p l last nxt)
    (heq : ∀ a ∈ l.map Prod.fst, h' a = h a) : DSeg view h' prev p l last nxt := by
  induction l generalizing prev p with
  | nil => exact hs
  | cons c l ih =>
    obtain ⟨a, e⟩ := c
    obtain ⟨rfl, x, n, hx, hv, hs⟩ := hs
    refine ⟨rfl, x, n, by rw [heq _ (by simp), hx], hv, ih hs fun a ha => heq a ?_⟩
    rw [List.map_cons]
    exact List.mem_cons_of_mem _ ha

/-- A heap determines the segment between a block and an address outside it. -/
theorem DSeg.unique {l l' : List (α × ε)} {prev prev' p last last' nxt : α}
    (hs : DSeg view h prev p l last nxt) (hs' : DSeg view h prev' p l' last' nxt)
    (hout : nxt ∉ l.map Prod.fst) (hout' : nxt ∉ l'.map Prod.fst) : l = l' := by
  induction l generalizing prev prev' p l' with
  | nil =>
    cases l' with
    | nil => rfl
    | cons c l' => exact absurd (by rw [← hs.2, hs'.1]; simp) hout'
  | cons c l ih =>
    obtain ⟨a, e⟩ := c
    cases l' with
    | nil => exact absurd (by rw [← hs'.2, hs.1]; simp) hout
    | cons c' l' =>
      obtain ⟨a', e'⟩ := c'
      obtain ⟨rfl, x, n, hx, hv, hs⟩ := hs
      obtain ⟨rfl, x', n', hx', hv', hs'⟩ := hs'
      obtain rfl : x = x' := Option.some.inj (hx.symm.trans hx')
      have heq := hv.symm.trans hv'
      simp only [Prod.mk.injEq] at heq
      obtain ⟨-, rfl, rfl⟩ := heq
      rw [List.map_cons, List.mem_cons, not_or] at hout hout'
      rw [ih hs hs' hout.2 hout'.2]

end DSeg

end Schemes
