import Mathlib.Data.List.Basic

/-! # Textbook caches

A cache of bounded capacity keeps pages in numbered slots. An access to a page that
is not in the cache takes the next free slot, or the slot of the page that the
policy evicts.
-/

namespace PostgreSieve

/-- What an access does: whether the page was there, its slot, and the page that had to go. -/
structure Outcome (α : Type*) where
  found : Bool
  slot : ℕ
  evicted : Option α
  deriving DecidableEq

/-- The outcomes of a sequence of accesses. -/
def outcomes {σ α : Type*} (access : σ → α → Outcome α × σ) : σ → List α → List (Outcome α)
  | _, [] => []
  | c, p :: ps => (access c p).1 :: outcomes access (access c p).2 ps

/-! ## Least recently used -/

namespace LruCache

variable {α : Type*} [DecidableEq α]

/-- Access page `p` of a cache with capacity `N`, given as the pages with their slots from the
least to the most recently used. -/
def access (N : ℕ) (c : List (α × ℕ)) (p : α) : Outcome α × List (α × ℕ) :=
  match c.find? (·.1 = p) with
  | some e => (⟨true, e.2, none⟩, c.erase e ++ [e])
  | none =>
    if c.length < N then (⟨false, c.length, none⟩, c ++ [(p, c.length)])
    else
      match c with
      | [] => (⟨false, 0, none⟩, [])
      | e :: rest => (⟨false, e.2, some e.1⟩, rest ++ [(p, e.2)])

end LruCache

/-! ## SIEVE -/

/-- A page in the queue of SIEVE, with its visited bit. -/
structure SieveEntry (α : Type*) where
  page : α
  slot : ℕ
  visited : Bool
  deriving DecidableEq

/-- The queue of SIEVE from the tail, where the oldest page is, to the head. The hand is at the
first page of `ahead`. -/
structure SieveCache (α : Type*) where
  passed : List (SieveEntry α)
  ahead : List (SieveEntry α)
  deriving DecidableEq

namespace SieveCache

variable {α : Type*}

def entries (c : SieveCache α) : List (SieveEntry α) := c.passed ++ c.ahead

/-- A hand that has gone past the head goes to the tail. -/
def wrap (passed : List (SieveEntry α)) : List (SieveEntry α) → SieveCache α
  | [] => ⟨[], passed⟩
  | e :: ahead => ⟨passed, e :: ahead⟩

/-- Walk the hand until it is at a page that is not visited, and evict this page. -/
def evict : ℕ → SieveCache α → Option (SieveEntry α × SieveCache α)
  | 0, _ => none
  | _ + 1, ⟨_, []⟩ => none
  | n + 1, ⟨passed, e :: ahead⟩ =>
    if e.visited then evict n (wrap (passed ++ [{ e with visited := false }]) ahead)
    else some (e, wrap passed ahead)

/-- Insert at the head. -/
def insert (c : SieveCache α) (e : SieveEntry α) : SieveCache α := ⟨c.passed, c.ahead ++ [e]⟩

section Evict

variable {p a : List (SieveEntry α)} {x e : SieveEntry α} {c c' : SieveCache α} {n : ℕ}

/-- The number of visited pages. -/
def visits (c : SieveCache α) : ℕ := c.entries.countP (·.visited)

theorem wrap_perm : (wrap p a).entries.Perm (p ++ a) := by
  cases a <;> simp [wrap, entries]

theorem exists_evict (ha : c.ahead ≠ []) (hn : c.visits < n) : ∃ r, c.evict n = some r := by
  induction n generalizing c with
  | zero => exact absurd hn (Nat.not_lt_zero _)
  | succ n ih =>
    obtain ⟨p, a⟩ := c
    cases a with
    | nil => exact absurd rfl ha
    | cons x a =>
      by_cases hx : x.visited = true
      · rw [evict, if_pos hx]
        apply ih
        · cases a <;> simp [wrap]
        · have hcount : (wrap (p ++ [{ x with visited := false }]) a).visits + 1 =
              visits ⟨p, x :: a⟩ := by
            rw [visits, wrap_perm.countP_eq]
            simp [visits, entries, hx]
            omega
          omega
      · exact ⟨(x, wrap p a), by rw [evict, if_neg hx]⟩

/-- What the walk of the hand keeps: it will not stop at the newest page, unless this is the only
one. -/
def Guarded (c : SieveCache α) : Prop :=
  ∃ l e, c.ahead = l ++ [e] ∧ (c.passed = [] ∧ l = [] ∨ (∃ x ∈ l, x.visited = false) ∨
    e.visited = true ∧ (l ≠ [] ∨ ∃ x ∈ c.passed, x.visited = false))

theorem Guarded.walk (h : Guarded ⟨p, x :: a⟩) (hx : x.visited = true) :
    (wrap (p ++ [{ x with visited := false }]) a).Guarded := by
  obtain ⟨l, e, hl, h⟩ := h
  cases l with
  | nil =>
    obtain ⟨rfl, rfl⟩ : x = e ∧ a = [] := by simpa using hl
    refine ⟨p, { x with visited := false }, rfl, ?_⟩
    rcases h with ⟨rfl, -⟩ | ⟨y, hy, -⟩ | ⟨-, hne | hy⟩
    · exact .inl ⟨rfl, rfl⟩
    · exact absurd hy List.not_mem_nil
    · exact absurd rfl hne
    · exact .inr (.inl hy)
  | cons y l =>
    obtain ⟨rfl, rfl⟩ : x = y ∧ a = l ++ [e] := by simpa using hl
    have hwrap : wrap (p ++ [{ x with visited := false }]) (l ++ [e]) =
        ⟨p ++ [{ x with visited := false }], l ++ [e]⟩ := by
      cases l <;> rfl
    rw [hwrap]
    refine ⟨l, e, rfl, .inr ?_⟩
    rcases h with ⟨-, hne⟩ | ⟨z, hz, hv⟩ | ⟨he, -⟩
    · exact absurd hne (List.cons_ne_nil x l)
    · rcases List.mem_cons.mp hz with rfl | hz
      · exact absurd hx (by simp [hv])
      · exact .inl ⟨z, hz, hv⟩
    · exact .inr ⟨he, .inr ⟨{ x with visited := false }, by simp, rfl⟩⟩

theorem Guarded.stop (h : Guarded ⟨p, x :: a⟩) (hx : ¬ x.visited = true) : a ≠ [] ∨ p = [] := by
  obtain ⟨l, e, hl, h⟩ := h
  cases l with
  | nil =>
    obtain ⟨rfl, rfl⟩ : x = e ∧ a = [] := by simpa using hl
    rcases h with ⟨hp, -⟩ | ⟨y, hy, -⟩ | ⟨he, -⟩
    · exact .inr hp
    · exact absurd hy List.not_mem_nil
    · exact absurd he hx
  | cons y l =>
    obtain ⟨-, rfl⟩ : x = y ∧ a = l ++ [e] := by simpa using hl
    exact .inl (by simp)

/-- Between two accesses: the newest page is visited, and the hand is not at it unless it is the
only page. -/
def Settled (c : SieveCache α) : Prop :=
  ∃ l e, c.ahead = l ++ [e] ∧ e.visited = true ∧ (l ≠ [] ∨ c.passed = [])

theorem Settled.guarded (h : c.Settled) : c.Guarded := by
  obtain ⟨l, e, hl, he, hp⟩ := h
  refine ⟨l, e, hl, ?_⟩
  by_cases hn : l = []
  · exact .inl ⟨hp.resolve_left (not_not_intro hn), hn⟩
  · exact .inr (.inr ⟨he, .inl hn⟩)

theorem Settled.insert (h : c.ahead ≠ [] ∨ c.passed = []) (he : e.visited = true) :
    (c.insert e).Settled := ⟨c.ahead, e, rfl, he, h⟩

end Evict

variable [DecidableEq α]

def visit (p : α) (e : SieveEntry α) : SieveEntry α :=
  if e.page = p then { e with visited := true } else e

/-- Access page `p` of a cache with capacity `N`, where a new page has visited bit `fresh`. -/
def access (N : ℕ) (fresh : Bool) (c : SieveCache α) (p : α) : Outcome α × SieveCache α :=
  match c.entries.find? (·.page = p) with
  | some e => (⟨true, e.slot, none⟩, ⟨c.passed.map (visit p), c.ahead.map (visit p)⟩)
  | none =>
    if c.entries.length < N then
      (⟨false, c.entries.length, none⟩, c.insert ⟨p, c.entries.length, fresh⟩)
    else
      match c.evict (c.entries.length + 1) with
      | none => (⟨false, 0, none⟩, c)
      | some (e, c') => (⟨false, e.slot, some e.page⟩, c'.insert ⟨p, e.slot, fresh⟩)

theorem Settled.visit {c : SieveCache α} {q : α} (h : c.Settled) :
    Settled ⟨c.passed.map (visit q), c.ahead.map (visit q)⟩ := by
  obtain ⟨l, e, hl, he, hp⟩ := h
  refine ⟨l.map (SieveCache.visit q), SieveCache.visit q e, by simp [hl], ?_, ?_⟩
  · simp only [SieveCache.visit]
    split
    · rfl
    · exact he
  · simpa using hp

end SieveCache

end PostgreSieve
