import PostgreSieve.Buffer.State
import PostgreSieve.Runs.Basic

/-! # Eviction policies

An `EvictionVtable` is what the buffer manager knows about a policy: its shared
data, the hooks that run under `buffer_strategy_lock`, and `get_buffer`. The
last one touches buffer headers that other backends change, so it is given as a
program: at each program point the next atomic action.
-/

namespace PostgreSieve

/-- One atomic action of `get_buffer`, with the program points it can lead to. -/
inductive GetInstr (σ π : Type) where
  /-- `SpinLockAcquire(&buffer_strategy_lock)`. -/
  | acquire (next : σ → π)
  /-- A step on the policy's own data: an atomic operation, or work under the lock. -/
  | update (s : σ) (next : π)
  | load (b : ℕ) (next : BufState → π)
  /-- `WaitBufHdrUnlocked`. -/
  | await (b : ℕ) (next : BufState → π)
  /-- A compare-exchange that leaves the reference count alone. -/
  | cas (b : ℕ) (old new : BufState) (ok : σ × π) (fail : BufState → σ × π)
  /-- The compare-exchange that pins the victim; `s` is the policy's data after it. -/
  | claim (b : ℕ) (old : BufState) (s : σ) (fail : BufState → π)
  /-- `elog(ERROR)`, with the lock released if it was held. -/
  | raise (s : σ) (message : String)

/-- A hook is `none` if its entry is NULL or its body is empty, and otherwise the change it
makes to the policy's data under `buffer_strategy_lock`. -/
abbrev Hook (σ : Type) := Option (σ → ℕ → σ)

/-- The routines of one eviction policy, for a pool of `N` buffers. -/
structure EvictionVtable where
  State : Type
  Pc : Type
  init : ℕ → State
  getBuffer : ℕ → Pc
  code : ℕ → State → Pc → GetInstr State Pc
  notifyHit : ℕ → Hook State
  notifyInsert : ℕ → Hook State
  notifyInvalidate : ℕ → Hook State

/-! ## `get_buffer` without concurrency -/

/-- The policy's data and the buffer headers. -/
structure Solo (σ : Type) where
  policy : σ
  headers : ℕ → BufState

/-- What `get_buffer` leaves behind: the victim or the error text. -/
structure GetResult (σ : Type) extends Solo σ where
  victim : Except String ℕ

namespace GetInstr

variable {σ π : Type}

/-- One action when no other backend runs. -/
def solo (m : Solo σ) (g : π) : GetInstr σ π → (Solo σ × π) ⊕ GetResult σ
  | acquire next => .inl (m, next m.policy)
  | update s next => .inl ({ m with policy := s }, next)
  | load b next => .inl (m, next (m.headers b))
  | await b next => if (m.headers b).has bmLocked then .inl (m, g) else .inl (m, next (m.headers b))
  | cas b old new ok fail =>
    if m.headers b = old then
      .inl (⟨ok.1, Function.update m.headers b new⟩, ok.2)
    else
      .inl ({ m with policy := (fail (m.headers b)).1 }, (fail (m.headers b)).2)
  | claim b old s fail =>
    if m.headers b = old then
      .inr ⟨⟨s, Function.update m.headers b (old + bufRefcountOne)⟩, .ok b⟩
    else
      .inl (m, fail (m.headers b))
  | raise s message => .inr ⟨⟨s, m.headers⟩, .error message⟩

end GetInstr

namespace EvictionVtable

/-- One pass of the loop of a solitary `get_buffer`. -/
def soloStep (V : EvictionVtable) (N : ℕ) (c : Solo V.State × V.Pc) :
    (Solo V.State × V.Pc) ⊕ GetResult V.State :=
  (V.code N c.1.policy c.2).solo c.1 c.2

/-- A solitary call of `get_buffer` returns `r`. -/
def GetsBuffer (V : EvictionVtable) (N : ℕ) (m : Solo V.State) (r : GetResult V.State) : Prop :=
  Returns (V.soloStep N) (m, V.getBuffer N) r

/-- The tests `get_buffer` makes before each compare-exchange: it takes only buffers that are
neither pinned nor locked, and otherwise lowers the usage count at most. -/
structure Careful (V : EvictionVtable) : Prop where
  claim : ∀ {N s g b old s' fail}, V.code N s g = .claim b old s' fail →
    old.getRefcount = 0 ∧ old.has bmLocked = false
  cas : ∀ {N s g b old new ok fail}, V.code N s g = .cas b old new ok fail →
    old.has bmLocked = false ∧
      (0 < old.getUsagecount ∧ new = old - bufUsagecountOne ∨
        new = old &&& ~~~bufUsagecountMask)

end EvictionVtable

/-! ## Policies that keep the buffers in lists -/

/-- What a list policy needs of one action at the program point `g`: outside the first one the
lock is held, the data stays well formed, and only the victim of a claim leaves the lists. -/
def GetInstr.Keeps {σ π : Type} (N : ℕ) (Inv : σ → Prop) (linked : σ → ℕ → Prop)
    (At : σ → π → Prop) (s : σ) : GetInstr σ π → Prop
  | acquire next => ∀ s', Inv s' → At s' (next s')
  | update s' next => Inv s' ∧ At s' next ∧ ∀ x, linked s x → linked s' x
  | load _ next => ∀ w, At s (next w)
  | await _ next => ∀ w, At s (next w)
  | cas _ _ _ ok fail =>
    (Inv ok.1 ∧ At ok.1 ok.2 ∧ ∀ x, linked s x → linked ok.1 x) ∧
      ∀ w, Inv (fail w).1 ∧ At (fail w).1 (fail w).2 ∧ ∀ x, linked s x → linked (fail w).1 x
  | claim b _ s' fail =>
    b < N ∧ Inv s' ∧ (∀ x, x ≠ b → linked s x → linked s' x) ∧ ∀ w, At s (fail w)
  | raise s' _ => Inv s' ∧ ∀ x, linked s x → linked s' x

/-- A policy whose buffers are linked in lists under `buffer_strategy_lock`. -/
structure EvictionVtable.ListPolicy (V : EvictionVtable) (N : ℕ) where
  /-- The buffers that `get_buffer` can reach. -/
  linked : V.State → ℕ → Prop
  Inv : V.State → Prop
  /-- The program points of `get_buffer` at which the lock is held. -/
  locked : V.Pc → Bool
  /-- What holds at a program point with the lock held. -/
  At : V.State → V.Pc → Prop
  inv_init : Inv (V.init N)
  linked_init : ∀ b < N, linked (V.init N) b
  locked_entry : locked (V.getBuffer N) = false
  locked_of_at : ∀ {s g}, At s g → locked g = true
  acquire_iff : ∀ {s g}, locked g = false ↔ ∃ next, V.code N s g = .acquire next
  code_keeps : ∀ {s g}, Inv s → (locked g = true → At s g) →
    (V.code N s g).Keeps N Inv linked At s
  insert : ∀ {s b}, Inv s → b < N → ∃ f, V.notifyInsert N = some f ∧
    Inv (f s b) ∧ linked (f s b) b ∧ ∀ x, linked s x → linked (f s b) x
  hit : ∀ {f s b}, V.notifyHit N = some f → Inv s → b < N →
    Inv (f s b) ∧ ∀ x, linked s x → linked (f s b) x
  invalidate : ∀ {f s b}, V.notifyInvalidate N = some f → Inv s → b < N → Inv (f s b)

/-! ## Calls one after the other -/

/-- What an access of `get_buffer` to a buffer header returns: the word that was read, or whether
the compare-exchange succeeded. -/
structure Answer where
  word : BufState
  swapped : Bool

/-- The calls that a policy gets; the headers are in any state. -/
inductive Call where
  | notifyHit (b : ℕ)
  | notifyInsert (b : ℕ)
  | notifyInvalidate (b : ℕ)
  | getBuffer (answers : List Answer)

/-- The calls are about buffers of the pool. -/
def Call.InRange (N : ℕ) : Call → Prop
  | notifyHit b | notifyInsert b | notifyInvalidate b => b < N
  | getBuffer _ => True

namespace EvictionVtable

variable {V : EvictionVtable} {N : ℕ}

/-- The policy's data when `get_buffer` has returned, or has performed an action for each
answer. -/
def play (V : EvictionVtable) (N : ℕ) (s : V.State) (g : V.Pc) : List Answer → V.State
  | [] => s
  | a :: as => match V.code N s g with
    | .acquire next => V.play N s (next s) as
    | .update s' next => V.play N s' next as
    | .load _ next => V.play N s (next a.word) as
    | .await _ next => V.play N s (next a.word) as
    | .cas _ _ _ ok fail =>
      if a.swapped then V.play N ok.1 ok.2 as else V.play N (fail a.word).1 (fail a.word).2 as
    | .claim _ _ s' fail => if a.swapped then s' else V.play N s (fail a.word) as
    | .raise s' _ => s'

/-- The policy's data after a call. -/
def call (V : EvictionVtable) (N : ℕ) (s : V.State) : Call → V.State
  | .notifyHit b => ((V.notifyHit N).map fun f => f s b).getD s
  | .notifyInsert b => ((V.notifyInsert N).map fun f => f s b).getD s
  | .notifyInvalidate b => ((V.notifyInvalidate N).map fun f => f s b).getD s
  | .getBuffer answers => V.play N s (V.getBuffer N) answers

namespace ListPolicy

variable (L : V.ListPolicy N)

theorem play_inv {s : V.State} {g : V.Pc} (as : List Answer) (hs : L.Inv s)
    (hg : L.locked g = true → L.At s g) : L.Inv (V.play N s g as) := by
  induction as generalizing s g with
  | nil => exact hs
  | cons a as ih =>
    have hk := L.code_keeps hs hg
    rw [play]
    cases hc : V.code N s g with
    | acquire next =>
      rw [hc] at hk
      exact ih hs fun _ => hk s hs
    | update s' next =>
      rw [hc] at hk
      exact ih hk.1 fun _ => hk.2.1
    | load b next =>
      rw [hc] at hk
      exact ih hs fun _ => hk a.word
    | await b next =>
      rw [hc] at hk
      exact ih hs fun _ => hk a.word
    | cas b old new ok fail =>
      rw [hc] at hk
      dsimp only
      split
      · exact ih hk.1.1 fun _ => hk.1.2.1
      · exact ih (hk.2 a.word).1 fun _ => (hk.2 a.word).2.1
    | claim b old s' fail =>
      rw [hc] at hk
      dsimp only
      split
      · exact hk.2.1
      · exact ih hs fun _ => hk.2.2.2 a.word
    | raise s' message =>
      rw [hc] at hk
      exact hk.1

theorem call_inv {s : V.State} {c : Call} (hs : L.Inv s) (hc : c.InRange N) :
    L.Inv (V.call N s c) := by
  cases c with
  | notifyHit b =>
    rw [call]
    cases hf : V.notifyHit N with
    | none => exact hs
    | some f => exact (L.hit hf hs hc).1
  | notifyInsert b =>
    obtain ⟨f, hf, hi, -⟩ := L.insert hs hc
    rw [call, hf]
    exact hi
  | notifyInvalidate b =>
    rw [call]
    cases hf : V.notifyInvalidate N with
    | none => exact hs
    | some f => exact L.invalidate hf hs hc
  | getBuffer as =>
    refine L.play_inv as hs fun hl => ?_
    rw [L.locked_entry] at hl
    cases hl

theorem calls_inv {cs : List Call} (hcs : ∀ c ∈ cs, c.InRange N) :
    L.Inv (cs.foldl (V.call N) (V.init N)) := by
  refine List.foldlRecOn cs _ L.inv_init fun s hs c hc => ?_
  exact L.call_inv hs (hcs c hc)

end ListPolicy

end EvictionVtable

end PostgreSieve
