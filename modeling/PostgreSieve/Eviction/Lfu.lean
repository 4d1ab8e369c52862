import PostgreSieve.Eviction.Vtable
import PostgreSieve.Lists.Linked

/-! # LFU

Every linked buffer has a frequency between 1 and `LFU_MAX_FREQ` and stands in the
list of that frequency, its bucket, from the least to the most recently used. All
buckets share two arrays; each is anchored at its own sentinel behind the buffers.
-/

namespace PostgreSieve

open Function List

namespace Lfu

def maxFreq : ℕ := 1024

/-- `LFU_SENTINEL`. -/
def sentinel (N f : ℕ) : ℕ := N + f - 1

/-- `min_freq` and the arrays `LFUFreq`, `LFUNext` and `LFUPrev`. -/
structure State where
  minFreq : ℕ
  freq : ℕ → ℕ
  links : Links ℕ

def init (N : ℕ) : State where
  minFreq := 1
  freq b := if b < N then 1 else 0
  links := Links.ofRange N (sentinel N 1) id

/-- `LFU_BUCKET_EMPTY`. -/
def bucketEmpty (N : ℕ) (s : State) (f : ℕ) : Bool := s.links.next (sentinel N f) = sentinel N f

def bucketUnlink (N : ℕ) (s : State) (b : ℕ) : State :=
  { s with links := s.links.unlink (sentinel N (s.freq b)) N b }

def bucketInsertMRU (N : ℕ) (s : State) (b f : ℕ) : State :=
  { s with links := s.links.insertNewest (sentinel N f) b }

def setFreq (s : State) (b f : ℕ) : State := { s with freq := update s.freq b f }

def notifyInsert (N : ℕ) (s : State) (b : ℕ) : State :=
  let s := if s.freq b ≠ 0 then bucketUnlink N s b else s
  { bucketInsertMRU N (setFreq s b 1) b 1 with minFreq := 1 }

def notifyHit (N : ℕ) (s : State) (b : ℕ) : State :=
  let f := s.freq b
  if f = 0 then s
  else
    let newF := if f < maxFreq then f + 1 else maxFreq
    let s := bucketUnlink N s b
    let s := if f = s.minFreq && bucketEmpty N s f then { s with minFreq := newF } else s
    bucketInsertMRU N (setFreq s b newF) b newF

def notifyInvalidate (N : ℕ) (s : State) (b : ℕ) : State :=
  if s.freq b ≠ 0 then setFreq (bucketUnlink N s b) b 0 else s

/-- What `LFUGetBuffer` does once it has pinned `c` from bucket `f`. -/
def evict (N : ℕ) (s : State) (f c : ℕ) : State :=
  let s := setFreq (bucketUnlink N s c) c 0
  if bucketEmpty N s f then { s with minFreq := f } else s

inductive Pc where
  | start
  | bucket (f : ℕ)
  | candidate (f c : ℕ)
  | examine (f c : ℕ) (old : BufState)

/-- `LFUGetBuffer`. -/
def code (N : ℕ) (s : State) : Pc → GetInstr State Pc
  | .start => .acquire fun s => .bucket s.minFreq
  | .bucket f =>
    if f ≤ maxFreq then .update s (.candidate f (s.links.prev (sentinel N f)))
    else .raise s "no unpinned buffers available"
  | .candidate f c =>
    if c ≠ sentinel N f then .load c (.examine f c)
    else .update (if bucketEmpty N s f then { s with minFreq := f + 1 } else s) (.bucket (f + 1))
  | .examine f c old =>
    if old.has bmLocked || old.getRefcount ≠ 0 then .update s (.candidate f (s.links.next c))
    else .claim c old (evict N s f c) fun _ => .bucket s.minFreq

abbrev vtable : EvictionVtable where
  State := State
  Pc := Pc
  init := init
  getBuffer _ := .start
  code := code
  notifyHit N := some (notifyHit N)
  notifyInsert N := some (notifyInsert N)
  notifyInvalidate N := some (notifyInvalidate N)

/-- The buffers in bucket `f`, least recently used first. -/
def bucket (N : ℕ) (s : State) (f : ℕ) : List ℕ :=
  s.links.walk (sentinel N f) N (s.links.prev (sentinel N f))

/-! ## The buckets as lists -/

/-- The arrays hold one list of buffers for each frequency, and no buffer twice. -/
structure Holds (N : ℕ) (k : Links ℕ) (B : ℕ → List ℕ) : Prop where
  holds : ∀ f, 1 ≤ f → f ≤ maxFreq → k.Holds (sentinel N f) (B f)
  lt : ∀ f, 1 ≤ f → f ≤ maxFreq → ∀ b ∈ B f, b < N
  disjoint : ∀ f g, 1 ≤ f → f ≤ maxFreq → 1 ≤ g → g ≤ maxFreq → ∀ b ∈ B f, b ∈ B g → f = g

theorem sentinel_eq {N f : ℕ} (hf : 1 ≤ f) : sentinel N f = N + (f - 1) := by
  rw [sentinel]
  omega

namespace Holds

variable {N b f g : ℕ} {k : Links ℕ} {B : ℕ → List ℕ}

theorem sentinel_ne (hf : 1 ≤ f) (hg : 1 ≤ g) (h : f ≠ g) : sentinel N f ≠ sentinel N g := by
  rw [sentinel_eq hf, sentinel_eq hg]
  omega

theorem ne_sentinel (hf : 1 ≤ f) (hb : b < N) : b ≠ sentinel N f := by
  rw [sentinel_eq hf]
  omega

variable (h : Holds N k B) (hf : 1 ≤ f) (hf' : f ≤ maxFreq)
include h hf hf'

theorem apart (hg : 1 ≤ g) (hg' : g ≤ maxFreq)
    (hfg : f ≠ g) {i : ℕ} (hi : i ∈ sentinel N g :: B g) : i ∉ sentinel N f :: B f := by
  rw [mem_cons] at hi ⊢
  rintro (he | he)
  · rcases hi with hi | hi
    · exact sentinel_ne hf hg hfg (he.symm.trans hi)
    · exact ne_sentinel hf (h.lt g hg hg' i hi) he
  · rcases hi with rfl | hi
    · exact ne_sentinel hg (h.lt f hf hf' _ he) rfl
    · exact hfg (h.disjoint f g hf hf' hg hg' i he hi)

theorem unlink (hb : b ∈ B f) :
    Holds N (k.unlink (sentinel N f) N b) fun g => (B g).erase b where
  holds g hg hg' := by
    by_cases hgf : g = f
    · subst hgf
      exact (h.holds g hg hg').unlink_erase hb
    · have hbg : b ∉ B g := fun hm => hgf (h.disjoint g f hg hg' hf hf' b hm hb)
      rw [erase_of_not_mem hbg]
      have hfr := fun i hi => (h.holds f hf hf').unlink_frame (m := N) hb
        (h.apart hf hf' hg hg' (Ne.symm hgf) (i := i) hi)
      exact (h.holds g hg hg').congr (fun i hi => (hfr i hi).1) fun i hi => (hfr i hi).2
  lt g hg hg' c hc := h.lt g hg hg' c (mem_of_mem_erase hc)
  disjoint g g' h1 h2 h3 h4 c hc hc' :=
    h.disjoint g g' h1 h2 h3 h4 c (mem_of_mem_erase hc) (mem_of_mem_erase hc')

theorem insertNewest (hb : b < N) (hn : ∀ g, 1 ≤ g → g ≤ maxFreq → b ∉ B g) :
    Holds N (k.insertNewest (sentinel N f) b) (update B f (B f ++ [b])) := by
  have hb' : b ∉ sentinel N f :: B f := by
    rw [mem_cons, not_or]
    exact ⟨ne_sentinel hf hb, hn f hf hf'⟩
  refine ⟨fun g hg hg' => ?_, fun g hg hg' c hc => ?_, fun g g' h1 h2 h3 h4 c hc hc' => ?_⟩
  · by_cases hgf : g = f
    · subst hgf
      rw [update_self]
      exact (h.holds g hg hg').insertNewest hb'
    · rw [update_of_ne hgf]
      have hib : ∀ i ∈ sentinel N g :: B g, i ≠ b := by
        rintro i hi rfl
        rw [mem_cons] at hi
        exact hi.elim (ne_sentinel hg hb) (hn g hg hg')
      have hfr := fun i hi => (h.holds f hf hf').insertNewest_frame hb'
        (h.apart hf hf' hg hg' (Ne.symm hgf) (i := i) hi) (hib i hi)
      exact (h.holds g hg hg').congr (fun i hi => (hfr i hi).1) fun i hi => (hfr i hi).2
  · rw [update_apply] at hc
    split at hc
    · rcases mem_append.mp hc with hc | hc
      · exact h.lt f hf hf' c hc
      · exact mem_singleton.mp hc ▸ hb
    · exact h.lt g hg hg' c hc
  · have hmem : ∀ e, 1 ≤ e → e ≤ maxFreq → c ∈ update B f (B f ++ [b]) e →
        c ∈ B e ∨ c = b ∧ e = f := by
      intro e he he' hm
      rw [update_apply] at hm
      split at hm
      · rename_i hef
        subst hef
        simpa using hm
      · exact Or.inl hm
    rcases hmem g h1 h2 hc with hc | ⟨rfl, rfl⟩ <;> rcases hmem g' h3 h4 hc' with hc' | ⟨hcb, hgf⟩
    · exact h.disjoint g g' h1 h2 h3 h4 c hc hc'
    · exact absurd hc (hcb ▸ hn g h1 h2)
    · exact absurd hc' (hn g' h3 h4)
    · exact hgf.symm

theorem length_le : (B f).length ≤ N :=
  (h.holds f hf hf').length_le (h.lt f hf hf')

end Holds

/-- The buckets with `b` taken out. -/
def without (B : ℕ → List ℕ) (b : ℕ) : ℕ → List ℕ := fun g => (B g).erase b

/-- The buckets with `b` as the most recently used of bucket `f`. -/
def withNewest (B : ℕ → List ℕ) (b f : ℕ) : ℕ → List ℕ := update B f (B f ++ [b])

/-- The bucket of a linked buffer is the one of its frequency. -/
structure Buckets (N : ℕ) (s : State) (B : ℕ → List ℕ) : Prop where
  holds : Holds N s.links B
  mem_iff : ∀ {b f}, 1 ≤ f → f ≤ maxFreq → (b ∈ B f ↔ b < N ∧ s.freq b = f)
  freq_le : ∀ {b}, b < N → s.freq b ≤ maxFreq
  minFreq_pos : 1 ≤ s.minFreq

variable {N b c f m : ℕ} {s : State} {B : ℕ → List ℕ} {k : Links ℕ}

theorem mem_without (hn : (B f).Nodup) : c ∈ without B b f ↔ c ≠ b ∧ c ∈ B f := by
  rw [without, hn.mem_erase_iff]

theorem mem_withNewest {g : ℕ} : c ∈ withNewest B b f g ↔ c ∈ B g ∨ g = f ∧ c = b := by
  rw [withNewest, update_apply]
  split
  · rename_i h
    subst h
    simp
  · simp [*]

namespace Buckets

theorem of_init (hN : 0 < N) : Buckets N (init N) fun f => if f = 1 then List.range N else [] where
  holds := by
    have hs : sentinel N 1 = N := by simp [sentinel]
    refine ⟨fun f hf _ => ?_, fun f _ _ b hb => ?_, fun f g _ _ _ _ b hb hb' => ?_⟩
    · by_cases h1 : f = 1
      · subst h1
        exact Links.ofRange_holds hN (by omega)
      · have hsf := sentinel_eq (N := N) hf
        have hne : ¬ sentinel N f < N := by omega
        have hns : sentinel N f ≠ sentinel N 1 := Holds.sentinel_ne hf le_rfl h1
        simp only [h1, if_false]
        refine ⟨nodup_singleton _, ?_⟩
        simp [Links.Adj, init, Links.ofRange, hne, hns]
    · grind
    · grind
  mem_iff {b f} hf _ := by
    by_cases h1 : f = 1
    · simp [h1, init]
    · by_cases hb : b < N <;> simp [h1, init, hb]
      omega
  freq_le {b} hb := by simp [init, hb, maxFreq]
  minFreq_pos := le_rfl

section

variable (h : Buckets N s B) (hf : 1 ≤ f) (hf' : f ≤ maxFreq)
include h hf hf'

theorem nodup : (B f).Nodup :=
  (h.holds.holds f hf hf').nodup_list

theorem bucket_eq : bucket N s f = B f :=
  (h.holds.holds f hf hf').walk_eq (h.holds.length_le hf hf')

end

theorem bucketEmpty_iff (h : Holds N s.links B) (hf : 1 ≤ f) (hf' : f ≤ maxFreq) :
    bucketEmpty N s f = true ↔ B f = [] := by
  rw [bucketEmpty, decide_eq_true_iff]
  exact (h.holds f hf hf').next_anchor_eq_iff

section

variable (h : Buckets N s B)
include h

theorem bucketUnlink (hb : b < N) (hf : s.freq b ≠ 0) :
    Holds N (bucketUnlink N s b).links (without B b) := by
  have hf1 : 1 ≤ s.freq b := by omega
  exact h.holds.unlink hf1 (h.freq_le hb) ((h.mem_iff hf1 (h.freq_le hb)).mpr ⟨hb, rfl⟩)

theorem without_eq (hf : s.freq b = 0) {g : ℕ} (hg : 1 ≤ g)
    (hg' : g ≤ maxFreq) : without B b g = B g := by
  refine erase_of_not_mem fun hm => ?_
  have := ((h.mem_iff hg hg').mp hm).2
  omega

theorem detach (hb : b < N) :
    Holds N (if s.freq b ≠ 0 then Lfu.bucketUnlink N s b else s).links (without B b) := by
  split
  · exact h.bucketUnlink hb ‹_›
  · rename_i hf
    rw [not_not] at hf
    have he := fun g hg hg' => h.without_eq hf (g := g) hg hg'
    refine ⟨fun g hg hg' => ?_, fun g hg hg' => ?_, fun g g' h1 h2 h3 h4 => ?_⟩
    · rw [he g hg hg']; exact h.holds.holds g hg hg'
    · rw [he g hg hg']; exact h.holds.lt g hg hg'
    · rw [he g h1 h2, he g' h3 h4]; exact h.holds.disjoint g g' h1 h2 h3 h4

theorem drop (hk : Holds N k (without B b)) (hm : 1 ≤ m) :
    Buckets N ⟨m, update s.freq b 0, k⟩ (without B b) where
  holds := hk
  mem_iff {c g} hg hg' := by
    rw [mem_without (h.nodup hg hg'), h.mem_iff hg hg']
    by_cases hc : c = b <;> simp [hc]
    omega
  freq_le {c} hc := by
    simp only [update_apply]
    split
    · omega
    · exact h.freq_le hc
  minFreq_pos := hm

theorem relink (hb : b < N) (hk : Holds N k (without B b)) (hf : 1 ≤ f)
    (hf' : f ≤ maxFreq) (hm : 1 ≤ m) :
    Buckets N ⟨m, update s.freq b f, k.insertNewest (sentinel N f) b⟩
      (withNewest (without B b) b f) where
  holds := hk.insertNewest hf hf' hb fun g hg hg' hm =>
    ((mem_without (h.nodup hg hg')).mp hm).1 rfl
  mem_iff {c g} hg hg' := by
    rw [mem_withNewest, mem_without (h.nodup hg hg'), h.mem_iff hg hg']
    by_cases hc : c = b
    · simp [hc, hb, eq_comm]
    · simp [hc]
  freq_le {c} hc := by
    simp only [update_apply]
    split
    · exact hf'
    · exact h.freq_le hc
  minFreq_pos := hm

theorem notifyInsert (hb : b < N) :
    Buckets N (notifyInsert N s b) (withNewest (without B b) b 1) := by
  have hr := h.relink hb (h.detach hb) le_rfl (by decide) le_rfl
  by_cases hf : s.freq b = 0
  · simpa [Lfu.notifyInsert, bucketInsertMRU, setFreq, hf] using hr
  · simpa [Lfu.notifyInsert, bucketInsertMRU, setFreq, Lfu.bucketUnlink, hf] using hr

end

/-- The frequency after a hit. -/
def hitFreq (f : ℕ) : ℕ := if f < maxFreq then f + 1 else maxFreq

theorem hitFreq_le (f : ℕ) : hitFreq f ≤ maxFreq := by
  rw [hitFreq]
  split <;> omega

theorem one_le_hitFreq (f : ℕ) : 1 ≤ hitFreq f := by
  rw [hitFreq]
  split
  · omega
  · decide

/-- `min_freq` after a hit: it follows the buffer when the hit empties the bucket it names. -/
def hitMin (s : State) (B : ℕ → List ℕ) (b : ℕ) : ℕ :=
  if s.freq b = s.minFreq ∧ without B b (s.freq b) = [] then hitFreq (s.freq b) else s.minFreq

theorem notifyHit_eq (h : Buckets N s B) (hb : b < N) (hf : s.freq b ≠ 0) :
    notifyHit N s b = ⟨hitMin s B b, update s.freq b (hitFreq (s.freq b)),
      (Lfu.bucketUnlink N s b).links.insertNewest (sentinel N (hitFreq (s.freq b))) b⟩ := by
  have he : bucketEmpty N (Lfu.bucketUnlink N s b) (s.freq b) =
      decide (without B b (s.freq b) = []) := by
    rw [Bool.eq_iff_iff, decide_eq_true_iff]
    exact bucketEmpty_iff (h.bucketUnlink hb hf) (by omega) (h.freq_le hb)
  have hm : (Lfu.bucketUnlink N s b).minFreq = s.minFreq := rfl
  simp only [notifyHit, hf, if_false, he, hm, hitMin, hitFreq, Bool.and_eq_true,
    decide_eq_true_iff]
  split <;> rfl

theorem notifyHit (h : Buckets N s B) (hb : b < N) (hf : s.freq b ≠ 0) :
    Buckets N (notifyHit N s b) (withNewest (without B b) b (hitFreq (s.freq b))) := by
  rw [h.notifyHit_eq hb hf]
  refine h.relink hb (h.bucketUnlink hb hf) (one_le_hitFreq _) (hitFreq_le _) ?_
  rw [hitMin]
  split
  · exact one_le_hitFreq _
  · exact h.minFreq_pos

theorem notifyHit_of_freq_eq_zero (hf : s.freq b = 0) : Lfu.notifyHit N s b = s := by
  simp [Lfu.notifyHit, hf]

variable (h : Buckets N s B)
include h

theorem notifyInvalidate (hb : b < N) :
    Buckets N (notifyInvalidate N s b) (without B b) := by
  have hd := h.drop (h.detach hb) h.minFreq_pos
  by_cases hf : s.freq b = 0
  · have hu : update s.freq b 0 = s.freq := by rw [← hf, update_eq_self]
    simpa [Lfu.notifyInvalidate, hf, hu] using hd
  · simpa [Lfu.notifyInvalidate, setFreq, Lfu.bucketUnlink, hf] using hd

theorem evict_eq (hf : 1 ≤ f) (hf' : f ≤ maxFreq) (hc : c ∈ B f) :
    evict N s f c = ⟨if without B c f = [] then f else s.minFreq, update s.freq c 0,
      (Lfu.bucketUnlink N s c).links⟩ := by
  obtain ⟨hcN, hfc⟩ := (h.mem_iff hf hf').mp hc
  have he : bucketEmpty N (setFreq (Lfu.bucketUnlink N s c) c 0) f =
      decide (without B c f = []) := by
    rw [Bool.eq_iff_iff, decide_eq_true_iff]
    exact bucketEmpty_iff (s := setFreq (Lfu.bucketUnlink N s c) c 0)
      (h.bucketUnlink hcN (by omega)) hf hf'
  simp only [evict, he, decide_eq_true_iff]
  split <;> rfl

theorem evict (hf : 1 ≤ f) (hf' : f ≤ maxFreq) (hc : c ∈ B f) :
    Buckets N (evict N s f c) (without B c) := by
  obtain ⟨hcN, hfc⟩ := (h.mem_iff hf hf').mp hc
  rw [h.evict_eq hf hf' hc]
  refine h.drop (h.bucketUnlink hcN (by omega)) ?_
  split
  · exact hf
  · exact h.minFreq_pos

theorem setMinFreq (hm : 1 ≤ m) : Buckets N { s with minFreq := m } B :=
  ⟨h.holds, h.mem_iff, h.freq_le, hm⟩

theorem prev_sentinel (hf : 1 ≤ f) (hf' : f ≤ maxFreq) :
    s.links.prev (sentinel N f) = (B f).head?.getD (sentinel N f) := by
  have hh := h.holds.holds f hf hf'
  cases hB : B f with
  | nil => exact hh.prev_anchor_eq_iff.mpr hB
  | cons b l => exact (hB ▸ hh).prev_oldest

theorem next_mem (hf : 1 ≤ f) (hf' : f ≤ maxFreq) (hc : c ∈ B f) :
    s.links.next c = sentinel N f ∨ s.links.next c ∈ B f := by
  have hh := h.holds.holds f hf hf'
  have hm := hh.succ_mem (mem_cons_of_mem (sentinel N f) hc)
  rwa [Links.succ_of_ne (hh.ne_anchor hc), mem_cons] at hm

end Buckets

/-- A buffer that `LFUGetBuffer` can reach: it stands in the bucket of its frequency. -/
def Linked (N : ℕ) (s : State) (b : ℕ) : Prop := s.freq b ≠ 0 ∧ b ∈ bucket N s (s.freq b)

theorem Buckets.linked_iff (h : Buckets N s B) (hb : b < N) : Linked N s b ↔ s.freq b ≠ 0 := by
  refine ⟨fun hl => hl.1, fun hf => ⟨hf, ?_⟩⟩
  have hf1 : 1 ≤ s.freq b := by omega
  rw [h.bucket_eq hf1 (h.freq_le hb), h.mem_iff hf1 (h.freq_le hb)]
  exact ⟨hb, rfl⟩

@[simp] theorem freq_notifyInsert : (notifyInsert N s b).freq = update s.freq b 1 := by
  by_cases hf : s.freq b = 0 <;>
    simp [notifyInsert, bucketInsertMRU, setFreq, bucketUnlink, hf]

@[simp] theorem freq_evict : (evict N s f c).freq = update s.freq c 0 := by
  simp only [evict]
  split <;> rfl

theorem freq_notifyHit (hf : s.freq b ≠ 0) :
    (notifyHit N s b).freq = update s.freq b (Buckets.hitFreq (s.freq b)) := by
  simp only [notifyHit, hf, if_false, bucketInsertMRU, setFreq, Buckets.hitFreq]
  split <;> rfl

/-- LFU keeps its buckets under the lock; `LFUGetBuffer` and `LFUNotifyInvalidate` take buffers
out. -/
def listPolicy (N : ℕ) (hN : 0 < N) : vtable.ListPolicy N where
  linked s b := b < N ∧ Linked N s b
  Inv s := ∃ B, Buckets N s B
  locked g := match g with
    | Pc.start => false
    | _ => true
  At s g := match g with
    | Pc.start => False
    | Pc.bucket f => 1 ≤ f
    | Pc.candidate f c => 1 ≤ f ∧ f ≤ maxFreq ∧ (c = sentinel N f ∨ c < N ∧ s.freq c = f)
    | Pc.examine f c _ => 1 ≤ f ∧ f ≤ maxFreq ∧ c < N ∧ s.freq c = f
  inv_init := ⟨_, Buckets.of_init hN⟩
  linked_init b hb := by
    refine ⟨hb, ((Buckets.of_init hN).linked_iff hb).mpr ?_⟩
    simp [init, hb]
  locked_entry := rfl
  locked_of_at {s g} h := by cases g <;> simp_all
  acquire_iff {s g} := by cases g <;> simp [vtable, code] <;> grind
  code_keeps {s g} := by
    rintro ⟨B, h⟩ hat
    cases g with
    | start => exact fun s' ⟨_, h'⟩ => h'.minFreq_pos
    | bucket f =>
      simp only [vtable, code]
      split
      · rename_i hf'
        have hf : 1 ≤ f := hat rfl
        refine ⟨⟨B, h⟩, ⟨hf, hf', ?_⟩, fun _ hx => hx⟩
        rw [h.prev_sentinel hf hf']
        cases hB : B f with
        | nil => exact Or.inl rfl
        | cons c l => exact Or.inr ((h.mem_iff hf hf').mp (by simp [hB]))
      · exact ⟨⟨B, h⟩, fun _ hx => hx⟩
    | candidate f c =>
      obtain ⟨hf, hf', hc⟩ := hat rfl
      simp only [vtable, code]
      split
      · rename_i hcs
        exact fun _ => ⟨hf, hf', hc.resolve_left hcs⟩
      · split
        · exact ⟨⟨B, h.setMinFreq (by omega)⟩, Nat.le_succ_of_le hf, fun _ hx => hx⟩
        · exact ⟨⟨B, h⟩, Nat.le_succ_of_le hf, fun _ hx => hx⟩
    | examine f c old =>
      obtain ⟨hf, hf', hc⟩ := hat rfl
      have hcB := (h.mem_iff hf hf').mpr hc
      simp only [vtable, code]
      split
      · refine ⟨⟨B, h⟩, ⟨hf, hf', ?_⟩, fun _ hx => hx⟩
        exact (h.next_mem hf hf' hcB).imp_right (h.mem_iff hf hf').mp
      · refine ⟨hc.1, ⟨_, h.evict hf hf' hcB⟩, ?_, fun _ => h.minFreq_pos⟩
        rintro x hx ⟨hxN, hl⟩
        refine ⟨hxN, ((h.evict hf hf' hcB).linked_iff hxN).mpr ?_⟩
        rw [freq_evict, update_of_ne hx]
        exact hl.1
  insert {s b} := by
    rintro ⟨B, h⟩ hb
    have hi := h.notifyInsert hb
    refine ⟨_, rfl, ⟨_, hi⟩, ⟨hb, (hi.linked_iff hb).mpr (by simp)⟩, ?_⟩
    rintro x ⟨hx, hl⟩
    refine ⟨hx, (hi.linked_iff hx).mpr ?_⟩
    by_cases hxb : x = b
    · simp [hxb]
    · simpa [hxb] using hl.1
  hit {g s b} hg := by
    rintro ⟨B, h⟩ hb
    obtain rfl : notifyHit N = g := Option.some.inj hg
    by_cases hf : s.freq b = 0
    · rw [Buckets.notifyHit_of_freq_eq_zero hf]
      exact ⟨⟨B, h⟩, fun _ hx => hx⟩
    · have hi := h.notifyHit hb hf
      refine ⟨⟨_, hi⟩, ?_⟩
      rintro x ⟨hx, hl⟩
      refine ⟨hx, (hi.linked_iff hx).mpr ?_⟩
      rw [freq_notifyHit hf, update_apply]
      split
      · exact Nat.one_le_iff_ne_zero.mp (Buckets.one_le_hitFreq _)
      · exact hl.1
  invalidate {g s b} hg := by
    rintro ⟨B, h⟩ hb
    obtain rfl : notifyInvalidate N = g := Option.some.inj hg
    exact ⟨_, h.notifyInvalidate hb⟩

/-! ## What the arrays hold after any calls -/

/-- The arrays hold the buckets `B`: each can be followed from its sentinel in both directions and
has the buffers of its frequency, and the frequencies are in range. -/
structure Represents (N : ℕ) (s : State) (B : ℕ → List ℕ) : Prop where
  nodup : ∀ f, 1 ≤ f → f ≤ maxFreq → (B f).Nodup
  next : ∀ f, 1 ≤ f → f ≤ maxFreq →
    Links.Follows s.links.next (s.links.prev (sentinel N f)) (sentinel N f) (B f)
  prev : ∀ f, 1 ≤ f → f ≤ maxFreq →
    Links.Follows s.links.prev (s.links.next (sentinel N f)) (sentinel N f) (B f).reverse
  mem_iff : ∀ f, 1 ≤ f → f ≤ maxFreq → ∀ b, b ∈ B f ↔ b < N ∧ s.freq b = f
  detached : ∀ b, s.freq b = 0 → ∀ f, 1 ≤ f → f ≤ maxFreq → b ∉ B f
  freq_le : ∀ b < N, s.freq b ≤ maxFreq

theorem Buckets.represents (h : Buckets N s B) : Represents N s B where
  nodup _ hf hf' := h.nodup hf hf'
  next f hf hf' := (h.holds.holds f hf hf').follows_next
  prev f hf hf' := (h.holds.holds f hf hf').follows_prev
  mem_iff _ hf hf' _ := h.mem_iff hf hf'
  detached b hb f hf hf' hm := by
    have := ((h.mem_iff hf hf').mp hm).2
    omega
  freq_le _ hb := h.freq_le hb

end Lfu

/-- After `LFUInitialize` and any calls the arrays hold a list of buffers for each frequency. -/
theorem lfu_bucket_representation {N : ℕ} (hN : 0 < N) (cs : List Call)
    (hcs : ∀ c ∈ cs, c.InRange N) :
    ∃ B, Lfu.Represents N (cs.foldl (Lfu.vtable.call N) (Lfu.init N)) B := by
  obtain ⟨B, h⟩ := (Lfu.listPolicy N hN).calls_inv hcs
  exact ⟨B, h.represents⟩

/-- Buffer 0 is evicted and inserted again, buffer 1 is hit and then invalidated. -/
theorem lfu_bucket_representation_reinsert : 0 < 2 ∧ ∃ B, Lfu.Represents 2
    ([.getBuffer (List.replicate 5 ⟨0, true⟩), .notifyInsert 0, .notifyHit 1,
      .notifyInvalidate 1].foldl (Lfu.vtable.call 2) (Lfu.init 2)) B :=
  ⟨by decide, lfu_bucket_representation (by decide) _ (by simp [Call.InRange])⟩

end PostgreSieve
