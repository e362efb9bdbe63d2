import Mathlib.Data.List.Basic
import Mathlib.Data.List.Nodup
import Miniraft.Std.Prefix

/-!
# Linearizable histories

An object with a sequential meaning is used concurrently: an operation is invoked and, some time
later or never, answered. A history of such events is linearizable if its operations can be put in
one order in which the object, used sequentially, gives the same answers, and in which an operation
that was answered before another one was invoked comes first. An order that is only ever extended
can be kept up with a history event by event (`Linearizes.invoke`, `Linearizes.answer`,
`Linearizes.extend`).
-/

namespace Linearizability

variable {σ τ Op Op' Res Id : Type*}

/-- What an operation does to the state, and its answer. -/
structure Object (σ Op Res : Type*) where
  init : σ
  step : σ → Op → σ × Res

namespace Object

variable (obj : Object σ Op Res)

/-- The state after some operations, one after the other. -/
def run (ops : List Op) : σ := ops.foldl (fun s op => (obj.step s op).1) obj.init

/-- The answer to the operation at position `n`. -/
def answer (ops : List Op) (n : ℕ) : Option Res :=
  ops[n]?.map fun op => (obj.step (obj.run (ops.take n)) op).2

@[simp] theorem run_concat (ops : List Op) (op : Op) :
    obj.run (ops ++ [op]) = (obj.step (obj.run ops) op).1 := by
  simp [run]

theorem run_take_succ {ops : List Op} {n : ℕ} {op : Op} (h : ops[n]? = some op) :
    obj.run (ops.take (n + 1)) = (obj.step (obj.run (ops.take n)) op).1 := by
  rw [List.take_add_one, h]
  exact obj.run_concat ..

theorem answer_of_getElem? {ops : List Op} {n : ℕ} {op : Op} (h : ops[n]? = some op) :
    obj.answer ops n = some (obj.step (obj.run (ops.take n)) op).2 := by
  rw [answer, h]
  rfl

/-- Later operations do not change earlier answers. -/
theorem answer_append {ops : List Op} {n : ℕ} (more : List Op) (h : n < ops.length) :
    obj.answer (ops ++ more) n = obj.answer ops n := by
  rw [answer, answer, List.getElem?_append_left h, List.take_append_of_le_length h.le]

/-- An object that simulates another one, operation by operation, does so over any number of
operations. -/
theorem run_sim {Res' : Type*} (obj : Object σ Op Res) (obj' : Object τ Op' Res')
    {R : σ → τ → Prop} (f : Op' → Op) (h0 : R obj.init obj'.init)
    (hstep : ∀ s t op, R s t → R (obj.step s (f op)).1 (obj'.step t op).1) (ops : List Op') :
    R (obj.run (ops.map f)) (obj'.run ops) := by
  induction ops using List.reverseRecOn with
  | nil => exact h0
  | append_singleton ops op ih =>
    rw [List.map_append, List.map_singleton, run_concat, run_concat]
    exact hstep _ _ op ih

end Object

inductive Event (Id Op Res : Type*) where
  | invoke (id : Id) (op : Op)
  | answer (id : Id) (res : Res)
  deriving DecidableEq

/-- The events of a history, the oldest first: an operation is invoked once, and answered at most
once, after it was invoked. -/
inductive WellFormed : List (Event Id Op Res) → Prop
  | nil : WellFormed []
  | invoke {h id op} : WellFormed h → (∀ op', .invoke id op' ∉ h) →
    WellFormed (h ++ [.invoke id op])
  | answer {h id op res} : WellFormed h → .invoke id op ∈ h → (∀ res', .answer id res' ∉ h) →
    WellFormed (h ++ [.answer id res])

variable {h : List (Event Id Op Res)} {id : Id} {op op' : Op} {res : Res}

/-- The operation of an invocation is known by its identity. -/
theorem WellFormed.unique (hw : WellFormed h) (ho : .invoke id op ∈ h) (ho' : .invoke id op' ∈ h) :
    op = op' := by
  induction hw with
  | nil => cases ho
  | @invoke h jd op'' _ hnew ih =>
    simp only [List.mem_append, List.mem_singleton, Event.invoke.injEq] at ho ho'
    rcases ho with ho | ⟨rfl, rfl⟩
    · rcases ho' with ho' | ⟨rfl, rfl⟩
      · exact ih ho ho'
      · exact absurd ho (hnew _)
    · rcases ho' with ho' | ⟨-, rfl⟩
      · exact absurd ho' (hnew _)
      · rfl
  | answer _ _ _ ih =>
    simp only [List.mem_append, List.mem_singleton, reduceCtorEq, or_false] at ho ho'
    exact ih ho ho'

/-- Operations that were invoked are answered, each once. -/
theorem WellFormed.answers {xs : List (Id × Res)} (hw : WellFormed h)
    (hinv : ∀ x ∈ xs, ∃ op, .invoke x.1 op ∈ h) (hnew : ∀ x ∈ xs, ∀ res, .answer x.1 res ∉ h)
    (hnodup : (xs.map Prod.fst).Nodup) : WellFormed (h ++ xs.map fun x => .answer x.1 x.2) := by
  induction xs using List.reverseRecOn with
  | nil => simpa using hw
  | append_singleton xs x ih =>
    rw [List.map_append, ← List.append_assoc]
    rw [List.map_append, List.nodup_append] at hnodup
    obtain ⟨op, ho⟩ := hinv x (by simp)
    refine .answer (ih (fun y hy => hinv y (by simp [hy])) (fun y hy => hnew y (by simp [hy]))
      hnodup.1) (List.mem_append_left _ ho) fun res hres => ?_
    rcases List.mem_append.mp hres with hres | hres
    · exact hnew x (by simp) res hres
    · obtain ⟨y, hy, heq⟩ := List.mem_map.mp hres
      have hxy : y.1 = x.1 := (Event.answer.inj heq).1
      exact hnodup.2.2 _ (List.mem_map_of_mem hy) _ (by simp) hxy

/-- In the history `h`, the operation `a` was answered before `b` was invoked. -/
def Precedes (h : List (Event Id Op Res)) (a b : Id) : Prop :=
  ∃ h₁ h₂, h = h₁ ++ h₂ ∧ (∃ res, .answer a res ∈ h₁) ∧ ∃ op, .invoke b op ∈ h₂

theorem Precedes.answered {a b : Id} (hp : Precedes h a b) : ∃ res, .answer a res ∈ h := by
  obtain ⟨h₁, h₂, rfl, ⟨res, ha⟩, -⟩ := hp
  exact ⟨res, List.mem_append_left _ ha⟩

/-- One event more: what comes before something new has been answered. -/
theorem Precedes.of_concat {e : Event Id Op Res} {a b : Id} (hp : Precedes (h ++ [e]) a b) :
    Precedes h a b ∨ ∃ op, e = .invoke b op := by
  obtain ⟨h₁, h₂, heq, ⟨res, ha⟩, op, hb⟩ := hp
  rcases List.eq_nil_or_concat h₂ with rfl | ⟨h₂', e', rfl⟩
  · cases hb
  · rw [List.concat_eq_append, ← List.append_assoc] at heq
    obtain ⟨rfl, hlast⟩ := List.append_inj' heq rfl
    obtain rfl := List.singleton_inj.mp hlast
    rcases List.mem_append.mp (List.concat_eq_append ▸ hb) with hb | hb
    · exact .inl ⟨h₁, h₂', rfl, ⟨res, ha⟩, op, hb⟩
    · exact .inr ⟨op, (List.mem_singleton.mp hb).symm⟩

/-- An order of operations of the history that explains all its answers. -/
structure Linearizes (obj : Object σ Op Res) (order : List (Id × Op))
    (h : List (Event Id Op Res)) : Prop where
  nodup : (order.map Prod.fst).Nodup
  invoked : ∀ x ∈ order, .invoke x.1 x.2 ∈ h
  answered : ∀ {id res}, .answer id res ∈ h → ∃ n op, order[n]? = some (id, op) ∧
    obj.answer (order.map Prod.snd) n = some res
  ordered : ∀ {m n : ℕ} {a b : Id × Op}, order[m]? = some a → order[n]? = some b →
    Precedes h a.1 b.1 → m < n

def Linearizable (obj : Object σ Op Res) (h : List (Event Id Op Res)) : Prop :=
  ∃ order, Linearizes obj order h

namespace Linearizes

variable {obj : Object σ Op Res} {order more : List (Id × Op)} {n : ℕ}

theorem nil : Linearizes obj [] ([] : List (Event Id Op Res)) :=
  ⟨.nil, by simp, by simp, by simp⟩

/-- The place of an operation in an order is known by its identity. -/
theorem index_eq (hnodup : (order.map Prod.fst).Nodup) {m : ℕ} {a b : Id × Op}
    (hm : order[m]? = some a) (hn : order[n]? = some b) (hab : a.1 = b.1) : m = n := by
  obtain ⟨hlt, rfl⟩ := List.getElem?_eq_some_iff.mp hm
  obtain ⟨hlt', rfl⟩ := List.getElem?_eq_some_iff.mp hn
  have hm' : (order.map Prod.fst)[m]? = some order[n].1 := by simp [hlt, hab]
  exact (List.getElem?_inj (by simpa using hlt) hnodup).mp (hm'.trans (by simp [hlt']))

/-- An operation is invoked that is not in the order yet. -/
theorem invoke (H : Linearizes obj order h) (hnew : id ∉ order.map Prod.fst) :
    Linearizes obj order (h ++ [.invoke id op]) where
  nodup := H.nodup
  invoked x hx := List.mem_append_left _ (H.invoked x hx)
  answered ha := by
    rcases List.mem_append.mp ha with ha | ha
    · exact H.answered ha
    · cases List.mem_singleton.mp ha
  ordered {m n a b} hm hn hp := by
    rcases hp.of_concat with hp | ⟨op', he⟩
    · exact H.ordered hm hn hp
    · obtain ⟨rfl, -⟩ := Event.invoke.inj he
      exact absurd (List.mem_map_of_mem (List.mem_of_getElem? hn)) hnew

/-- An operation of the order is answered as the object does in this order. -/
theorem answer (H : Linearizes obj order h) (hn : order[n]? = some (id, op))
    (hres : obj.answer (order.map Prod.snd) n = some res) :
    Linearizes obj order (h ++ [.answer id res]) where
  nodup := H.nodup
  invoked x hx := List.mem_append_left _ (H.invoked x hx)
  answered ha := by
    rcases List.mem_append.mp ha with ha | ha
    · exact H.answered ha
    · obtain ⟨rfl, rfl⟩ := Event.answer.inj (List.mem_singleton.mp ha)
      exact ⟨n, op, hn, hres⟩
  ordered hm hn hp := by
    rcases hp.of_concat with hp | ⟨op', he⟩
    · exact H.ordered hm hn hp
    · cases he

theorem answers {xs : List (Id × Res)} (H : Linearizes obj order h)
    (hres : ∀ x ∈ xs, ∃ n op, order[n]? = some (x.1, op) ∧
      obj.answer (order.map Prod.snd) n = some x.2) :
    Linearizes obj order (h ++ xs.map fun x => .answer x.1 x.2) := by
  induction xs using List.reverseRecOn with
  | nil => simpa using H
  | append_singleton xs x ih =>
    obtain ⟨n, op, hn, hx⟩ := hres x (by simp)
    rw [List.map_append, ← List.append_assoc]
    exact (ih fun y hy => hres y (by simp [hy])).answer hn hx

/-- Operations that were invoked are put at the end of the order. All that were answered are in
the order already, so nothing has to come before them. -/
theorem extend (H : Linearizes obj order h) (hnodup : ((order ++ more).map Prod.fst).Nodup)
    (hinv : ∀ x ∈ more, .invoke x.1 x.2 ∈ h) : Linearizes obj (order ++ more) h where
  nodup := hnodup
  invoked x hx := by
    rcases List.mem_append.mp hx with hx | hx
    · exact H.invoked x hx
    · exact hinv x hx
  answered ha := by
    obtain ⟨n, op, hn, hres⟩ := H.answered ha
    have hlt : n < order.length := (List.getElem?_eq_some_iff.mp hn).1
    refine ⟨n, op, (List.prefix_append ..).getElem?_eq hn, ?_⟩
    rw [List.map_append, obj.answer_append _ (by simpa using hlt)]
    exact hres
  ordered {m n a b} hm hn hp := by
    obtain ⟨res, ha⟩ := hp.answered
    obtain ⟨k, op, hk, -⟩ := H.answered ha
    have hklt : k < order.length := (List.getElem?_eq_some_iff.mp hk).1
    -- The one that was answered has its old place.
    obtain rfl := index_eq hnodup hm ((List.prefix_append order more).getElem?_eq hk) rfl
    rcases Nat.lt_or_ge n order.length with hlt | hge
    · rw [List.getElem?_append_left hklt] at hm
      rw [List.getElem?_append_left hlt] at hn
      exact H.ordered hm hn hp
    · exact hklt.trans_le hge

end Linearizes

end Linearizability
