import PostgreSieve.Eviction.ClockSweep
import PostgreSieve.Eviction.Sieve
import PostgreSieve.Eviction.Lru
import PostgreSieve.Eviction.Lfu

/-! # The policies of the buffer manager -/

namespace PostgreSieve

/-- The choices for `ActiveEviction`. -/
inductive EvictionPolicy where
  | clockSweep
  | sieve
  | lfu
  | lru
  deriving DecidableEq

namespace EvictionPolicy

def vtable : EvictionPolicy → EvictionVtable
  | clockSweep => ClockSweep.vtable
  | sieve => Sieve.vtable
  | lfu => Lfu.vtable
  | lru => Lru.vtable

theorem careful (policy : EvictionPolicy) : policy.vtable.Careful where
  claim {N s g b old s' fail} h := by
    cases policy <;> simp only [vtable, ClockSweep.code, Sieve.code, Lfu.code, Lru.code] at h <;>
      grind
  cas {N s g b old new ok fail} h := by
    cases policy <;> simp only [vtable, ClockSweep.code, Sieve.code, Lfu.code, Lru.code] at h <;>
      grind

end EvictionPolicy

end PostgreSieve
