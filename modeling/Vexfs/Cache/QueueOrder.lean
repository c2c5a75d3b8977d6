import Vexfs.Collections.OrderedSet

/-!
# The order of the members

A member is as old as its latest push.  The queue knows the first place of a member only, and
that is an older one when the member was removed and pushed again before its place was
dropped.  Such a push keeps the order exactly when no other member has its first place behind
the one that is found again (`isQueue_iff`).
-/

namespace OrderedSet

variable {α : Type*} [DecidableEq α]

/-! ### Taking several members -/

/-- Before the place of the oldest member there are places of removed members only. -/
theorem Covered.exists_popFront {s : OrderedSet α} (h : s.Covered) (hne : s.set ≠ ∅) :
  ∃ pre key rest, s.order = pre ++ key :: rest ∧ (∀ k ∈ pre, k ∉ s.set) ∧ key ∈ s.set
    ∧ s.popFront = (some key, ⟨rest, s.set.erase key⟩)
  := by
  obtain ⟨order, set⟩ := s
  change set ≠ ∅ at hne
  obtain ⟨member, hmember⟩ := Finset.nonempty_iff_ne_empty.mpr hne
  have hplace : member ∈ order := h member hmember
  clear h
  show ∃ pre key rest, order = pre ++ key :: rest ∧ (∀ k ∈ pre, k ∉ set) ∧ key ∈ set
    ∧ popFront.pop order set = (some key, ⟨rest, set.erase key⟩)
  induction order with
  | nil => cases hplace
  | cons key order ih =>
      by_cases hkey : key ∈ set
      · use [], key, order, rfl, List.forall_mem_nil _, hkey
        rw [popFront.pop, if_pos hkey]
      · have hlater : member ∈ order := by
          apply (List.mem_cons.mp hplace).resolve_left
          rintro rfl
          exact hkey hmember
        obtain ⟨pre, key', rest, rfl, hpre, hkey', hpop⟩ := ih hlater
        use key :: pre, key', rest, rfl, List.forall_mem_cons.mpr ⟨hkey, hpre⟩, hkey'
        rw [popFront.pop, if_neg hkey, hpop]

/-- The members that so many calls of `popFront` return, and what they leave. -/
def popTimes : ℕ → OrderedSet α → List α × OrderedSet α
  | 0, s => ([], s)
  | n + 1, s =>
      match s.popFront with
      | (some key, t) => (key :: (popTimes n t).1, (popTimes n t).2)
      | (none, t) => popTimes n t

theorem popFront_of_empty {s : OrderedSet α} (h : s.set = ∅) :
  s.popFront.1 = none
  := by
  rw [fst_popFront, peek, List.find?_eq_none]
  simp [h]

/-- A set without members stays without members. -/
theorem popTimes_of_empty {s : OrderedSet α} (h : s.set = ∅) (n : ℕ) :
  (popTimes n s).2.set = ∅
  := by
  induction n generalizing s with
  | zero => exact h
  | succ n ih =>
      have hset := set_pop s.order s.set
      rw [show popFront.pop s.order s.set = s.popFront from rfl, popFront_of_empty h] at hset
      rw [popTimes]
      split
      · next key t hpop => cases (congrArg Prod.fst hpop).symm.trans (popFront_of_empty h)
      · next t hpop =>
        apply ih
        rw [hpop] at hset
        rw [hset, h]

theorem popTimes_succ {s t : OrderedSet α} {key : α} (h : s.popFront = (some key, t)) (n : ℕ) :
  popTimes (n + 1) s = (key :: (popTimes n t).1, (popTimes n t).2)
  := by
  rw [popTimes, h]

/-- As long as there are members, every call takes another one. -/
theorem Covered.popTimes {s : OrderedSet α} (h : s.Covered) {n : ℕ} (hn : n ≤ s.len) :
  (popTimes n s).1.length = n ∧ (popTimes n s).2.set = s.set \ (popTimes n s).1.toFinset
  := by
  induction n generalizing s with
  | zero => exact ⟨rfl, (Finset.sdiff_empty).symm⟩
  | succ n ih =>
      have hne : s.set ≠ ∅ := by
        intro he
        rw [len, he] at hn
        cases hn
      obtain ⟨key, hkey, t, hpop, hset, ht⟩ := h.popFront hne
      have hlen : n ≤ t.len := by
        rw [len, hset, Finset.card_erase_of_mem hkey]
        exact Nat.le_sub_one_of_lt hn
      obtain ⟨hlength, hmembers⟩ := ih ht hlen
      rw [popTimes_succ hpop]
      use congrArg (· + 1) hlength
      rw [hmembers, hset, List.toFinset_cons, Finset.sdiff_insert, Finset.erase_sdiff_comm]

/-- Truncating takes the members that are too many. -/
theorem Covered.truncateTo_eq {s : OrderedSet α} (h : s.Covered) (max : ℕ) :
  s.truncateTo max = (OrderedSet.popTimes (s.len - max) s).2
  := by
  induction hn : s.len - max generalizing s with
  | zero => exact truncateTo_of_le (Nat.sub_eq_zero_iff_le.mp hn)
  | succ n ih =>
      have hlt : max < s.len := Nat.lt_of_sub_eq_succ hn
      have hne : s.set ≠ ∅ := by
        intro he
        rw [len, he] at hlt
        cases hlt
      obtain ⟨key, hkey, t, hpop, hset, ht⟩ := h.popFront hne
      have hlen : t.len - max = n := by
        rw [len, hset, Finset.card_erase_of_mem hkey, ← len]
        omega
      rw [OrderedSet.truncateTo, if_pos hlt, popTimes_succ hpop, ← ih ht hlen]
      split <;> simp_all

/-! ### Places and pushes -/

variable {pushed : α → ℕ}

/-- The first places of the members are in the order of their latest pushes. -/
def InOrder (s : OrderedSet α) (pushed : α → ℕ) : Prop :=
  ∀ a ∈ s.set, ∀ b ∈ s.set, pushed a < pushed b → s.order.idxOf a < s.order.idxOf b

/-- What `popFront` returns is the member whose latest push is oldest. -/
def PopsOldest (s : OrderedSet α) (pushed : α → ℕ) : Prop :=
  ∀ key, s.popFront.1 = some key
    ↔ key ∈ s.set ∧ ∀ k ∈ s.set, k ≠ key → pushed key < pushed k

theorem popsOldest_of_empty {s : OrderedSet α} (h : s.set = ∅) (pushed : α → ℕ) :
  s.PopsOldest pushed
  := by
  intro key
  simp [popFront_of_empty h, h]

theorem popsOldest_iff {s : OrderedSet α} {key : α} (hkey : key ∈ s.set)
    (hpop : s.popFront.1 = some key) :
  s.PopsOldest pushed ↔ ∀ k ∈ s.set, k ≠ key → pushed key < pushed k
  := by
  constructor
  · intro h
    exact ((h key).mp hpop).2
  · intro h key'
    rw [hpop]
    constructor
    · intro heq
      obtain rfl := Option.some.inj heq
      exact ⟨hkey, h⟩
    · rintro ⟨hkey', h'⟩
      by_contra hne
      have hne' : key ≠ key' := fun heq => hne (congrArg some heq)
      exact absurd (h key' hkey' hne'.symm) (h' key hkey hne').not_gt

/-- The members are in order when the oldest one is taken first and the others are in order. -/
theorem Covered.inOrder_iff {s : OrderedSet α} (h : s.Covered) (hne : s.set ≠ ∅)
    (hinj : Set.InjOn pushed s.set) :
  ∃ key t, s.popFront = (some key, t) ∧ key ∈ s.set ∧ t.set = s.set.erase key ∧ t.Covered
    ∧ (s.InOrder pushed ↔ s.PopsOldest pushed ∧ t.InOrder pushed)
  := by
  obtain ⟨pre, key, rest, horder, hpre, hkey, hpop⟩ := h.exists_popFront hne
  have hcov : s.popFront.2.Covered := covered_pop h
  rw [hpop] at hcov
  have hplace : s.order.idxOf key = pre.length := by
    rw [horder, List.idxOf_append_of_notMem fun hmem => hpre key hmem hkey, List.idxOf_cons_self,
      Nat.add_zero]
  have hplaces {a : α} (ha : a ∈ s.set) (hne : a ≠ key) :
      s.order.idxOf a = pre.length + (rest.idxOf a + 1) := by
    rw [horder, List.idxOf_append_of_notMem fun hmem => hpre a hmem ha,
      List.idxOf_cons_ne _ hne.symm]
  refine ⟨key, _, hpop, hkey, rfl, hcov, ?_⟩
  rw [popsOldest_iff hkey (congrArg Prod.fst hpop)]
  constructor
  · intro hin
    constructor
    · intro k hk hkne
      by_contra hlt
      obtain hlt | heq := (Nat.not_lt.mp hlt).lt_or_eq
      · have hidx := hin k hk key hkey hlt
        rw [hplace, hplaces hk hkne] at hidx
        omega
      · exact hkne (hinj hk hkey heq)
    · intro a ha b hb hab
      obtain ⟨hane, ha⟩ := Finset.mem_erase.mp ha
      obtain ⟨hbne, hb⟩ := Finset.mem_erase.mp hb
      have hidx := hin a ha b hb hab
      rw [hplaces ha hane, hplaces hb hbne] at hidx
      exact Nat.lt_of_succ_lt_succ (Nat.lt_of_add_lt_add_left hidx)
  · rintro ⟨hfirst, hrest⟩ a ha b hb hab
    by_cases hane : a = key
    · subst hane
      have hbne : b ≠ a := by
        rintro rfl
        exact lt_irrefl _ hab
      rw [hplace, hplaces hb hbne]
      omega
    · rw [hplaces ha hane]
      by_cases hbne : b = key
      · subst hbne
        exact absurd (hfirst a ha hane) hab.not_gt
      · rw [hplaces hb hbne]
        have hidx := hrest a (Finset.mem_erase.mpr ⟨hane, ha⟩) b
          (Finset.mem_erase.mpr ⟨hbne, hb⟩) hab
        exact Nat.add_lt_add_left (Nat.succ_lt_succ hidx) _

/-- The members are in order when every call, however many are made, takes the oldest one. -/
theorem Covered.inOrder_iff_popTimes {s : OrderedSet α} (h : s.Covered)
    (hinj : Set.InjOn pushed s.set) :
  s.InOrder pushed ↔ ∀ n, (OrderedSet.popTimes n s).2.PopsOldest pushed
  := by
  induction hn : s.len generalizing s with
  | zero =>
      have he : s.set = ∅ := Finset.card_eq_zero.mp hn
      constructor
      · intro _ n
        exact popsOldest_of_empty (popTimes_of_empty he n) pushed
      · intro _ a ha
        rw [he] at ha
        cases ha
  | succ n ih =>
      have hne : s.set ≠ ∅ := by
        intro he
        rw [len, he] at hn
        cases hn
      obtain ⟨key, t, hpop, hkey, hset, ht, hiff⟩ := h.inOrder_iff hne hinj
      have hinj' : Set.InjOn pushed t.set := by
        rw [hset]
        exact hinj.mono (Finset.coe_subset.mpr (Finset.erase_subset _ _))
      have hlen : t.len = n := by
        rw [len, hset, Finset.card_erase_of_mem hkey, ← len, hn, Nat.add_sub_cancel]
      rw [hiff, ih ht hinj' hlen]
      constructor
      · rintro ⟨hfirst, hrest⟩ n
        cases n with
        | zero => exact hfirst
        | succ n =>
            rw [popTimes_succ hpop]
            exact hrest n
      · intro hall
        use hall 0
        intro n
        have hn := hall (n + 1)
        rwa [popTimes_succ hpop] at hn

theorem set_popFront_subset (s : OrderedSet α) :
  s.popFront.2.set ⊆ s.set
  := by
  rw [show s.popFront = popFront.pop s.order s.set from rfl, set_pop]
  split
  · exact Finset.erase_subset _ _
  · exact Finset.Subset.refl _

theorem Covered.snd_popFront {s : OrderedSet α} (h : s.Covered) :
  s.popFront.2.Covered
  := covered_pop h

theorem Covered.inOrder_popFront {s : OrderedSet α} (h : s.Covered)
    (hinj : Set.InjOn pushed s.set) (hin : s.InOrder pushed) :
  s.popFront.2.InOrder pushed
  := by
  by_cases he : s.set = ∅
  · intro a ha
    have hmem := s.set_popFront_subset ha
    rw [he] at hmem
    cases hmem
  · obtain ⟨key, t, hpop, -, -, -, hiff⟩ := h.inOrder_iff he hinj
    rw [hpop]
    exact (hiff.mp hin).2

theorem snd_popTimes_succ (n : ℕ) (s : OrderedSet α) :
  (popTimes (n + 1) s).2 = (popTimes n s.popFront.2).2
  := by
  rw [popTimes]
  split
  · next hpop => rw [hpop]
  · next hpop => rw [hpop]

theorem Covered.inOrder_popTimes {s : OrderedSet α} (h : s.Covered)
    (hinj : Set.InjOn pushed s.set) (hin : s.InOrder pushed) (n : ℕ) :
  (OrderedSet.popTimes n s).2.InOrder pushed
  := by
  induction n generalizing s with
  | zero => exact hin
  | succ n ih =>
      rw [snd_popTimes_succ]
      apply ih h.snd_popFront
      · exact hinj.mono (Finset.coe_subset.mpr s.set_popFront_subset)
      · exact h.inOrder_popFront hinj hin

/-! ### Runs -/

/-- A call of an ordered set that changes it. -/
inductive Call (α : Type*) where
  | pushBack (key : α)
  | remove (key : α)
  | popFront
  | truncateTo (max : ℕ)
deriving DecidableEq

/-- An ordered set, and the time of the latest push of every key that was not a member. -/
structure Timed (α : Type*) where
  queue : OrderedSet α
  /-- The number of calls so far. -/
  clock : ℕ
  pushed : α → ℕ

namespace Timed

def new : Timed α := ⟨.new, 0, fun _ => 0⟩

def call (t : Timed α) : Call α → Timed α
  | .pushBack key =>
      ⟨t.queue.pushBack key, t.clock + 1,
        if t.queue.contains key then t.pushed else Function.update t.pushed key t.clock⟩
  | .remove key => ⟨(t.queue.remove key).2, t.clock + 1, t.pushed⟩
  | .popFront => ⟨t.queue.popFront.2, t.clock + 1, t.pushed⟩
  | .truncateTo max => ⟨t.queue.truncateTo max, t.clock + 1, t.pushed⟩

def calls (t : Timed α) (cs : List (Call α)) : Timed α :=
  cs.foldl call t

/-- The set is a queue with removal: `popFront` returns the member whose latest push is oldest,
and `truncateTo` discards as many members as are too many, those that `popFront` returns
first. -/
structure IsQueue (t : Timed α) : Prop where
  pop : t.queue.PopsOldest t.pushed
  truncate : ∀ max,
    (popTimes (t.queue.len - max) t.queue).1.length = t.queue.len - max
      ∧ (t.queue.truncateTo max).set
        = t.queue.set \ (popTimes (t.queue.len - max) t.queue).1.toFinset

/-- Pushing a key keeps the order: the key is a member, or the first place of every member is
before the first place of the key.  The first place of a key without a place is the end. -/
def FitsBack (s : OrderedSet α) (key : α) : Prop :=
  key ∈ s.set ∨ ∀ a ∈ s.set, s.order.idxOf a < s.order.idxOf key

/-- Members have places, and were pushed at different times. -/
structure Sound (t : Timed α) : Prop where
  covered : t.queue.Covered
  past : ∀ a ∈ t.queue.set, t.pushed a < t.clock
  inj : Set.InjOn t.pushed t.queue.set

omit [DecidableEq α] in
theorem sound_new :
  (new : Timed α).Sound
  := by
  constructor
  · exact covered_new
  · intro a ha
    cases ha
  · intro a ha
    cases ha

omit [DecidableEq α] in
/-- Members go away. -/
theorem Sound.less {t : Timed α} (h : t.Sound) {s : OrderedSet α} (hcov : s.Covered)
    (hsub : s.set ⊆ t.queue.set) :
  Sound ⟨s, t.clock + 1, t.pushed⟩
  := by
  use hcov
  · intro a ha
    exact (h.past a (hsub ha)).trans (Nat.lt_succ_self _)
  · exact h.inj.mono (Finset.coe_subset.mpr hsub)

theorem call_pushBack_of_mem {t : Timed α} {key : α} (h : key ∈ t.queue.set) :
  t.call (.pushBack key) = ⟨t.queue, t.clock + 1, t.pushed⟩
  := by
  rw [call, if_pos (contains_iff.mpr h), OrderedSet.pushBack, if_pos h]

theorem call_pushBack_of_notMem {t : Timed α} {key : α} (h : key ∉ t.queue.set) :
  t.call (.pushBack key)
    = ⟨⟨t.queue.order ++ [key], insert key t.queue.set⟩, t.clock + 1,
        Function.update t.pushed key t.clock⟩
  := by
  rw [call, if_neg fun hin => h (contains_iff.mp hin), OrderedSet.pushBack, if_neg h]

theorem Sound.pushBack {t : Timed α} (h : t.Sound) (key : α) :
  (t.call (.pushBack key)).Sound
  := by
  by_cases hkey : key ∈ t.queue.set
  · rw [call_pushBack_of_mem hkey]
    exact h.less h.covered (Finset.Subset.refl _)
  · have hcov := h.covered.pushBack key
    rw [OrderedSet.pushBack, if_neg hkey] at hcov
    rw [call_pushBack_of_notMem hkey]
    have hne {a : α} (ha : a ∈ t.queue.set) : a ≠ key := by
      rintro rfl
      exact hkey ha
    use hcov
    · intro a ha
      dsimp only at ha ⊢
      obtain rfl | ha := Finset.mem_insert.mp ha
      · rw [Function.update_self]
        exact Nat.lt_succ_self _
      · rw [Function.update_of_ne (hne ha)]
        exact (h.past a ha).trans (Nat.lt_succ_self _)
    · intro a ha b hb hab
      dsimp only at hab
      obtain rfl | ha' := Finset.mem_insert.mp ha
      · obtain rfl | hb' := Finset.mem_insert.mp hb
        · rfl
        · rw [Function.update_self, Function.update_of_ne (hne hb')] at hab
          exact absurd hab (h.past b hb').ne'
      · rw [Function.update_of_ne (hne ha')] at hab
        obtain rfl | hb' := Finset.mem_insert.mp hb
        · rw [Function.update_self] at hab
          exact absurd hab (h.past a ha').ne
        · rw [Function.update_of_ne (hne hb')] at hab
          exact h.inj ha' hb' hab

theorem Sound.call {t : Timed α} (h : t.Sound) (c : Call α) :
  (t.call c).Sound
  := by
  cases c with
  | pushBack key => exact h.pushBack key
  | remove key => exact h.less (h.covered.remove key) (Finset.erase_subset _ _)
  | popFront => exact h.less h.covered.snd_popFront t.queue.set_popFront_subset
  | truncateTo max =>
      obtain ⟨hcov, hsub, -⟩ := h.covered.truncateTo max
      exact h.less hcov hsub

@[simp]
theorem calls_concat (t : Timed α) (cs : List (Call α)) (c : Call α) :
  t.calls (cs ++ [c]) = (t.calls cs).call c
  := by
  rw [calls, calls, List.foldl_append]
  rfl

theorem sound_calls (cs : List (Call α)) :
  ((new : Timed α).calls cs).Sound
  := by
  induction cs using List.reverseRecOn with
  | nil => exact sound_new
  | append_singleton cs c ih =>
      rw [calls_concat]
      exact ih.call c

/-! ### The order along a run -/

/-- Pushing a key that fits keeps the order, and no other push does. -/
theorem Sound.inOrder_pushBack_iff {t : Timed α} (h : t.Sound)
    (hin : t.queue.InOrder t.pushed) (key : α) :
  (t.call (.pushBack key)).queue.InOrder (t.call (.pushBack key)).pushed ↔ FitsBack t.queue key
  := by
  by_cases hkey : key ∈ t.queue.set
  · rw [call_pushBack_of_mem hkey]
    exact ⟨fun _ => Or.inl hkey, fun _ => hin⟩
  · rw [call_pushBack_of_notMem hkey, FitsBack, or_iff_right hkey]
    have hne {a : α} (ha : a ∈ t.queue.set) : a ≠ key := by
      rintro rfl
      exact hkey ha
    have hold {a : α} (ha : a ∈ t.queue.set) :
        (t.queue.order ++ [key]).idxOf a = t.queue.order.idxOf a :=
      List.idxOf_append_of_mem (h.covered a ha)
    have hnew : (t.queue.order ++ [key]).idxOf key = t.queue.order.idxOf key := by
      by_cases hplace : key ∈ t.queue.order
      · exact List.idxOf_append_of_mem hplace
      · rw [List.idxOf_append_of_notMem hplace, List.idxOf_cons_self, Nat.add_zero,
          List.idxOf_eq_length hplace]
    constructor
    · intro hin' a ha
      rw [← hold ha, ← hnew]
      apply hin' a (Finset.mem_insert_of_mem ha) key (Finset.mem_insert_self _ _)
      dsimp only
      rw [Function.update_self, Function.update_of_ne (hne ha)]
      exact h.past a ha
    · intro hfit a ha b hb hab
      dsimp only at hab ⊢
      obtain rfl | ha' := Finset.mem_insert.mp ha
      · obtain rfl | hb' := Finset.mem_insert.mp hb
        · exact absurd hab (lt_irrefl _)
        · rw [Function.update_self, Function.update_of_ne (hne hb')] at hab
          exact absurd hab (h.past b hb').not_gt
      · rw [hold ha']
        obtain rfl | hb' := Finset.mem_insert.mp hb
        · rw [hnew]
          exact hfit a ha'
        · rw [Function.update_of_ne (hne ha'), Function.update_of_ne (hne hb')] at hab
          rw [hold hb']
          exact hin a ha' b hb' hab

/-- A call that is no push, or a push that fits, keeps the order. -/
theorem Sound.inOrder_call {t : Timed α} (h : t.Sound) (hin : t.queue.InOrder t.pushed)
    (c : Call α) (hfit : ∀ key, c = .pushBack key → FitsBack t.queue key) :
  (t.call c).queue.InOrder (t.call c).pushed
  := by
  cases c with
  | pushBack key => exact (h.inOrder_pushBack_iff hin key).mpr (hfit key rfl)
  | remove key =>
      intro a ha b hb hab
      exact hin a (Finset.mem_of_mem_erase ha) b (Finset.mem_of_mem_erase hb) hab
  | popFront => exact h.covered.inOrder_popFront h.inj hin
  | truncateTo max =>
      rw [Timed.call, h.covered.truncateTo_eq]
      exact h.covered.inOrder_popTimes h.inj hin _

theorem queue_calls_replicate (t : Timed α) (n : ℕ) :
  (t.calls (List.replicate n .popFront)).queue = (popTimes n t.queue).2
    ∧ (t.calls (List.replicate n .popFront)).pushed = t.pushed
  := by
  induction n generalizing t with
  | zero => exact ⟨rfl, rfl⟩
  | succ n ih =>
      rw [snd_popTimes_succ]
      exact ih (t.call .popFront)

theorem Sound.isQueue_iff {t : Timed α} (h : t.Sound) :
  t.IsQueue ↔ t.queue.PopsOldest t.pushed
  := by
  constructor
  · exact IsQueue.pop
  · intro hpop
    use hpop
    intro max
    rw [h.covered.truncateTo_eq]
    exact h.covered.popTimes (Nat.sub_le _ _)

/-- A state is in order when it is a queue however many members are taken. -/
theorem inOrder_iff_isQueue (cs : List (Call α)) :
  ((new : Timed α).calls cs).queue.InOrder ((new : Timed α).calls cs).pushed
    ↔ ∀ n, ((new : Timed α).calls (cs ++ List.replicate n .popFront)).IsQueue
  := by
  have h := sound_calls cs
  rw [h.covered.inOrder_iff_popTimes h.inj]
  apply forall_congr'
  intro n
  obtain ⟨hqueue, hpushed⟩ := queue_calls_replicate ((new : Timed α).calls cs) n
  have happend : (new : Timed α).calls (cs ++ List.replicate n .popFront)
      = ((new : Timed α).calls cs).calls (List.replicate n .popFront) := List.foldl_append
  rw [(sound_calls _).isQueue_iff, happend, hqueue, hpushed]

/-- The set is a queue in every state of a run, however many members are taken there, if and
only if every push of the run fits. -/
theorem isQueue_calls_iff (cs : List (Call α)) :
  (∀ done, done <+: cs → ∀ n,
      ((new : Timed α).calls (done ++ List.replicate n .popFront)).IsQueue)
    ↔ ∀ done key, done ++ [.pushBack key] <+: cs →
        FitsBack ((new : Timed α).calls done).queue key
  := by
  simp only [← inOrder_iff_isQueue]
  constructor
  · intro hall done key hpush
    have hdone := hall done ((List.prefix_append _ _).trans hpush)
    have hnext := hall _ hpush
    rw [calls_concat] at hnext
    exact ((sound_calls done).inOrder_pushBack_iff hdone key).mp hnext
  · intro hfit done hdone
    induction done using List.reverseRecOn with
    | nil =>
        intro a ha
        cases ha
    | append_singleton done c ih =>
        rw [calls_concat]
        apply (sound_calls done).inOrder_call (ih ((List.prefix_append _ _).trans hdone))
        rintro key rfl
        exact hfit done key hdone

/-- A key is removed and pushed again while another one waits: it comes first. -/
theorem not_isQueue_calls :
  ¬ ∀ cs : List (Call UInt64), ((new : Timed UInt64).calls cs).IsQueue
  := by
  intro h
  have hfirst := ((h [.pushBack 1, .pushBack 2, .remove 1, .pushBack 1]).pop 1).mp rfl
  have hlt := hfirst.2 2 (by decide) (by decide)
  revert hlt
  decide

end Timed

end OrderedSet
