import Mathlib.Init

/-!
# Programs that call

A program is a tree: at each node it makes a call, and it goes on with the answer. A machine says
which answers a call can have, and which state is left behind (`Machine.step`). A program can be
stopped between any two calls, so that what is shown of it is a triple with a condition for every
moment besides the one for the end (`Prog.Always`). Methods are programs with an object, and they
can fail (`Method`).
-/

namespace Calls

/-- A program that makes calls `Op` and ends with an `α`. -/
inductive Prog (Op : Type → Type) (α : Type) : Type 1 where
  | pure (a : α)
  | call {ρ : Type} (op : Op ρ) (next : ρ → Prog Op α)

/-- The state behind a call that is answered; `none` if it cannot be answered so. -/
structure Machine (Op : Type → Type) (S : Type) where
  step {ρ : Type} : Op ρ → ρ → S → Option S

variable {Op : Type → Type} {S ρ α β ε σ τ : Type}

namespace Prog

def bind : Prog Op α → (α → Prog Op β) → Prog Op β
  | .pure a, k => k a
  | .call op next, k => .call op fun r => (next r).bind k

instance : Monad (Prog Op) where
  pure := .pure
  bind := .bind

/-! ## Runs -/

section

variable (M : Machine Op S)

/-- A state of a run: that before it, or that behind one of its calls. -/
inductive Moment : Prog Op α → S → S → Prop where
  | now {p : Prog Op α} {s : S} : Moment p s s
  | call {ρ : Type} {op : Op ρ} {next : ρ → Prog Op α} {r : ρ} {s s₁ s' : S}
    (hstep : M.step op r s = some s₁) (h : Moment (next r) s₁ s') : Moment (.call op next) s s'

/-- A run to the end. -/
inductive Returns : Prog Op α → S → α → S → Prop where
  | pure {a : α} {s : S} : Returns (.pure a) s a s
  | call {ρ : Type} {op : Op ρ} {next : ρ → Prog Op α} {r : ρ} {s s₁ s' : S} {a : α}
    (hstep : M.step op r s = some s₁) (h : Returns (next r) s₁ a s') : Returns (.call op next) s a s'

/-- `C` at every moment of every run, and `Q` at the end of those that come to an end. -/
def Always (C : S → Prop) (Q : α → S → Prop) : Prog Op α → S → Prop
  | .pure a, s => C s ∧ Q a s
  | .call op next, s =>
    C s ∧ ∀ r s', M.step op r s = some s' → Always C Q (next r) s'

end

variable {M : Machine Op S} {C C' : S → Prop} {Q Q' : α → S → Prop} {p : Prog Op α} {s s' : S}
  {a : α}

theorem Returns.moment (h : p.Returns M s a s') : p.Moment M s s' := by
  induction h with
  | pure => exact .now
  | call hstep _ ih => exact .call hstep ih

theorem Returns.bind {k : α → Prog Op β} {b : β} {s₁ : S} (h : p.Returns M s a s₁)
    (hk : (k a).Returns M s₁ b s') : (p.bind k).Returns M s b s' := by
  induction h with
  | pure => exact hk
  | call hstep _ ih => exact .call hstep (ih hk)

theorem Always.now (h : p.Always M C Q s) : C s := by
  cases p with
  | pure a => exact h.1
  | call op next => exact h.1

theorem Always.moment (h : p.Always M C Q s) (hs : p.Moment M s s') : C s' := by
  induction hs with
  | now => exact h.now
  | call hstep _ ih => exact ih (h.2 _ _ hstep)

theorem Always.returns (h : p.Always M C Q s) (hs : p.Returns M s a s') : Q a s' := by
  induction hs with
  | pure => exact h.2
  | call hstep _ ih => exact ih (h.2 _ _ hstep)

theorem Always.mono (h : p.Always M C Q s) (hC : ∀ s, C s → C' s)
    (hQ : ∀ a s, Q a s → Q' a s) : p.Always M C' Q' s := by
  induction p generalizing s with
  | pure a => exact ⟨hC s h.1, hQ a s h.2⟩
  | call op next ih => exact ⟨hC s h.1, fun r s' hstep => ih r (h.2 r s' hstep)⟩

/-- The condition holds at the end, too. -/
theorem Always.settled (h : p.Always M C Q s) : p.Always M C (fun a s => C s ∧ Q a s) s := by
  induction p generalizing s with
  | pure a => exact ⟨h.1, h⟩
  | call op next ih => exact ⟨h.1, fun r s' hstep => ih r (h.2 r s' hstep)⟩

theorem always_bind {k : α → Prog Op β} {Q : β → S → Prop} :
    (p.bind k).Always M C Q s ↔ p.Always M C (fun a s => (k a).Always M C Q s) s := by
  induction p generalizing s with
  | pure a => exact ⟨fun h => ⟨h.now, h⟩, And.right⟩
  | call op next ih =>
    exact and_congr_right' (forall_congr' fun r => forall₂_congr fun s' _ => ih r)

end Prog

/-! ## Methods -/

/-- A method of an object of type `σ`. It returns an `α` or fails, and the object is left behind in
either case. -/
abbrev Method (Op : Type → Type) (ε σ : Type) : Type → Type 1 := ExceptT ε (StateT σ (Prog Op))

namespace Method

/-- One call. -/
def perform (op : Op ρ) : Method Op ε σ ρ := fun x => .call op fun r => .pure (.ok r, x)

/-- One call that may fail, and the method with it. -/
def attempt {ε' : Type} (wrap : ε' → ε) (op : Op (Except ε' ρ)) : Method Op ε σ ρ :=
  fun x => .call op fun r => .pure (r.mapError wrap, x)

/-- A method of a part of the object. -/
def onPart (part : σ → τ) (put : τ → σ → σ) (m : Method Op ε τ α) : Method Op ε σ α :=
  fun x => (m (part x)).bind fun r => .pure (r.1, put r.2 x)

/-- A method of another object, which is dropped afterwards, whether it fails or not. -/
def discard (m : Method Op ε τ α) (y : τ) : Method Op ε σ Unit :=
  fun x => (m y).bind fun _ => .pure (.ok (), x)

def Always (M : Machine Op S) (C : S → Prop) (Q : Except ε α → σ → S → Prop)
    (m : Method Op ε σ α) (x : σ) (s : S) : Prop :=
  Prog.Always M C (fun r s => Q r.1 r.2 s) (m x) s

/-- A state of a run of the method. -/
def Moment (M : Machine Op S) (m : Method Op ε σ α) (x : σ) (s s' : S) : Prop :=
  Prog.Moment M (m x) s s'

/-- A run of the method to its end. -/
def Returns (M : Machine Op S) (m : Method Op ε σ α) (x : σ) (s : S) (r : Except ε α) (x' : σ)
    (s' : S) : Prop :=
  Prog.Returns M (m x) s (r, x') s'

variable {M : Machine Op S} {C C' : S → Prop} {Q Q' : Except ε α → σ → S → Prop}
  {m : Method Op ε σ α} {x x' : σ} {s s' : S} {r : Except ε α}

theorem Always.moment (h : m.Always M C Q x s) (hs : m.Moment M x s s') : C s' :=
  Prog.Always.moment h hs

theorem Always.returns (h : m.Always M C Q x s) (hs : m.Returns M x s r x' s') : Q r x' s' :=
  Prog.Always.returns (Q := fun (r : Except ε α × σ) s => Q r.1 r.2 s) h hs

theorem Returns.moment (h : m.Returns M x s r x' s') : m.Moment M x s s' := Prog.Returns.moment h

theorem Always.settled (h : m.Always M C Q x s) :
    Prog.Always M C (fun r s => C s ∧ Q r.1 r.2 s) (m x) s := Prog.Always.settled h

theorem Always.mono (h : m.Always M C Q x s) (hC : ∀ s, C s → C' s)
    (hQ : ∀ r x s, C s → Q r x s → Q' r x s) : m.Always M C' Q' x s :=
  Prog.Always.mono h.settled hC fun _ _ hr => hQ _ _ _ hr.1 hr.2

/-! ### Rules for the statements of a method -/

theorem always_attempt {ε' : Type} {wrap : ε' → ε} {op : Op (Except ε' ρ)}
    {Q : Except ε ρ → σ → S → Prop} :
    (attempt wrap op : Method Op ε σ ρ).Always M C Q x s ↔
      C s ∧ ∀ r s', M.step op r s = some s' → C s' ∧ Q (r.mapError wrap) x s' := Iff.rfl

theorem Always.ite {c : Prop} [Decidable c] {m' : Method Op ε σ α} (h : c → m.Always M C Q x s)
    (h' : ¬c → m'.Always M C Q x s) : (if c then m else m').Always M C Q x s := by
  split
  · next hc => exact h hc
  · next hc => exact h' hc

section

variable {k : β → Method Op ε σ α} {Q' : Except ε β → σ → S → Prop}

theorem Always.get {k : σ → Method Op ε σ α} (h : (k x).Always M C Q x s) :
    (get >>= k).Always M C Q x s := h

theorem Always.set {k : PUnit → Method Op ε σ α} {y : σ} (h : (k ⟨⟩).Always M C Q y s) :
    (set y >>= k).Always M C Q x s := h

theorem Always.perform {op : Op β} (hC : C s)
    (h : ∀ r s', M.step op r s = some s' → (k r).Always M C Q x s') :
    (perform op >>= k).Always M C Q x s := ⟨hC, h⟩

theorem Always.attempt {ε' : Type} {wrap : ε' → ε} {op : Op (Except ε' β)} (hC : C s)
    (h : ∀ r s', M.step op r s = some s' →
      (∃ e, r = .error e ∧ C s' ∧ Q (.error (wrap e)) x s') ∨
        ∃ b, r = .ok b ∧ (k b).Always M C Q x s') :
    (attempt wrap op >>= k).Always M C Q x s := by
  refine ⟨hC, fun r s' hstep => ?_⟩
  rcases h r s' hstep with ⟨e, rfl, he⟩ | ⟨b, rfl, hb⟩
  · exact he
  · exact hb

/-- After a failure nothing more is done. -/
theorem Always.bind {m : Method Op ε σ β} (h : m.Always M C Q' x s)
    (hok : ∀ b x s, C s → Q' (.ok b) x s → (k b).Always M C Q x s)
    (herror : ∀ e x s, C s → Q' (.error e) x s → Q (.error e) x s) :
    (m >>= k).Always M C Q x s := by
  refine Prog.always_bind.mpr (h.settled.mono (fun _ => id) fun r s hr => ?_)
  obtain ⟨r, y⟩ := r
  cases r with
  | ok b => exact hok b y s hr.1 hr.2
  | error e => exact ⟨hr.1, herror e y s hr.1 hr.2⟩

end

theorem Always.tryCatch {handle : ε → Method Op ε σ α} (h : m.Always M C Q' x s)
    (hok : ∀ a x s, C s → Q' (.ok a) x s → Q (.ok a) x s)
    (herror : ∀ e x s, C s → Q' (.error e) x s → (handle e).Always M C Q x s) :
    (tryCatch m handle).Always M C Q x s := by
  refine Prog.always_bind.mpr (h.settled.mono (fun _ => id) fun r s hr => ?_)
  obtain ⟨r, y⟩ := r
  cases r with
  | ok a => exact ⟨hr.1, hok a y s hr.1 hr.2⟩
  | error e => exact herror e y s hr.1 hr.2

theorem Always.onPart {part : σ → τ} {put : τ → σ → σ} {m : Method Op ε τ α}
    (h : m.Always M C (fun r y s => Q r (put y x) s) (part x) s) :
    (m.onPart part put).Always M C Q x s := Prog.always_bind.mpr h.settled

theorem Always.discard {m : Method Op ε τ α} {y : τ} {Q : Except ε Unit → σ → S → Prop}
    (h : m.Always M C (fun _ _ s => Q (.ok ()) x s) y s) : (m.discard y).Always M C Q x s :=
  Prog.always_bind.mpr h.settled

/-! ### Runs without a failure -/

section

variable {k : β → Method Op ε σ α} {b : β} {x₁ : σ} {s₁ : S}

theorem Returns.get {k : σ → Method Op ε σ α} (h : (k x).Returns M x s r x' s') :
    (get >>= k).Returns M x s r x' s' := h

theorem Returns.set {k : PUnit → Method Op ε σ α} {y : σ} (h : (k ⟨⟩).Returns M y s r x' s') :
    (set y >>= k).Returns M x s r x' s' := h

theorem Returns.perform {op : Op β} (hstep : M.step op b s = some s₁)
    (h : (k b).Returns M x s₁ r x' s') : (perform op >>= k).Returns M x s r x' s' := .call hstep h

theorem Returns.attempt {ε' : Type} {wrap : ε' → ε} {op : Op (Except ε' β)}
    (hstep : M.step op (.ok b) s = some s₁) (h : (k b).Returns M x s₁ r x' s') :
    (attempt wrap op >>= k).Returns M x s r x' s' := .call hstep h

theorem Returns.bind {m : Method Op ε σ β} (h : m.Returns M x s (.ok b) x₁ s₁)
    (hk : (k b).Returns M x₁ s₁ r x' s') : (m >>= k).Returns M x s r x' s' := Prog.Returns.bind h hk

theorem Returns.tryCatch {handle : ε → Method Op ε σ α} {a : α}
    (h : m.Returns M x s (.ok a) x' s') : (tryCatch m handle).Returns M x s (.ok a) x' s' :=
  Prog.Returns.bind h .pure

theorem Returns.onPart {part : σ → τ} {put : τ → σ → σ} {m : Method Op ε τ α} {y : τ}
    (h : m.Returns M (part x) s r y s') : (m.onPart part put).Returns M x s r (put y x) s' :=
  Prog.Returns.bind h .pure

end

end Method

end Calls
