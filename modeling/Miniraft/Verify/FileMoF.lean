import Miniraft.Raft.FileMoF

/-!
# The target of a file with "Move on flush" semantics

What is written goes to a temporary file, and the target changes only when that is renamed. After
the rename the writer still has the target open, but nothing is left in its buffer, so that dropping
it is harmless (`Idle`). At every moment, wherever a cycle fails or the process is killed, the target
has the snapshot of one cycle, and none that is older than the last success (`content_mem_allowed`).
After a loss of power this is so only if the target is in the directory of the temporary files
(`flushDurable_iff`).
-/

namespace Miniraft

open Calls Calls.Method Files Files.Disk

variable {draws : List ℕ → Bool} {d d' d'' : Disk} {bytes bytes' : List UInt8}

namespace BufWriter

variable {w w' w'' : BufWriter} {t : Path}

/-- The writer has taken these bytes: they are in its file or still in its buffer. -/
structure Fed (bytes : List UInt8) (w w' : BufWriter) (d d' : Disk) : Prop where
  only : OnlyData w.handle d d'
  handle : w'.handle = w.handle
  stream : d'.data w.handle ++ w'.buf = d.data w.handle ++ w.buf ++ bytes

theorem Fed.refl : Fed [] w w d d := ⟨.refl, rfl, (List.append_nil _).symm⟩

theorem Fed.trans (h : Fed bytes w w' d d') (h' : Fed bytes' w' w'' d' d'') :
    Fed (bytes ++ bytes') w w'' d d'' := by
  obtain ⟨honly, hhandle, hstream⟩ := h'
  rw [h.handle] at honly hhandle hstream
  refine ⟨h.only.trans honly, hhandle, ?_⟩
  rw [hstream, h.stream, List.append_assoc]

/-- Bytes that go to the file from the front of the buffer. -/
theorem fed_append (n : ℕ) :
    Fed [] w { w with buf := w.buf.drop n } d (d.append w.handle (w.buf.take n)) := by
  refine ⟨onlyData_append, rfl, ?_⟩
  rw [data_append_self, List.append_assoc, List.take_append_drop, List.append_nil]

theorem always_flushBuf {fuel : ℕ} (hfuel : w.buf.length ≤ fuel) :
    (flushBuf fuel).Always (machine draws) (OnlyData w.handle d)
      (fun r w' d' => Fed [] w w' d d' ∧ (r = .ok () → w'.buf = [])) w d := by
  induction fuel generalizing w d with
  | zero => exact ⟨.refl, .refl, fun _ => List.eq_nil_of_length_eq_zero (Nat.le_zero.mp hfuel)⟩
  | succ fuel ih =>
    refine .get (.ite (fun hbuf => ⟨.refl, .refl, fun _ => hbuf⟩) fun _ => ?_)
    refine .attempt .refl fun r d' hstep => ?_
    rcases step_write hstep with ⟨e, rfl, rfl⟩ | ⟨n, -, rfl, rfl⟩
    · exact .inl ⟨e, rfl, .refl, .refl, nofun⟩
    refine .inr ⟨n, rfl, ?_⟩
    have hfed : Fed [] w { w with buf := w.buf.drop n } d (d.append w.handle (w.buf.take n)) :=
      fed_append n
    refine .ite (fun hn => ?_) fun hn => .set ?_
    · subst hn
      exact ⟨hfed.only, hfed, nofun⟩
    · refine (ih ?_).mono (fun _ => hfed.only.trans) fun r w' d' _ h => ⟨hfed.trans h.1, h.2⟩
      rw [List.length_drop]
      omega

theorem always_flush :
    flush.Always (machine draws) (OnlyData w.handle d)
      (fun r w' d' => Fed [] w w' d d' ∧ (r = .ok () → w'.buf = [])) w d :=
  .get (always_flushBuf (Nat.le_refl _))

/-- As many of the bytes have been taken as `write` says, and none if it fails. -/
def Took (bytes : List UInt8) (w : BufWriter) (d : Disk) (r : Except Fault ℕ) (w' : BufWriter)
    (d' : Disk) : Prop :=
  match r with
  | .ok n => Fed (bytes.take n) w w' d d'
  | .error _ => Fed [] w w' d d'

theorem always_writeToBuffer :
    (writeToBuffer bytes).Always (machine draws) (OnlyData w.handle d) (Took bytes w d) w d := by
  refine .get (.set ⟨.refl, .refl, rfl, ?_⟩)
  rw [List.take_length, List.append_assoc]

theorem always_makeRoom :
    (makeRoom bytes).Always (machine draws) (OnlyData w.handle d)
      (fun r w' d' => Fed [] w w' d d' ∧ (capacity ≤ bytes.length → r = .ok () → w'.buf = []))
      w d := by
  refine .get (.ite (fun _ => ?_) fun hlt => ?_)
  · exact always_flush.mono (fun _ => id) fun _ _ _ _ h => ⟨h.1, fun _ => h.2⟩
  · refine ⟨.refl, .refl, fun hle _ => List.eq_nil_of_length_eq_zero ?_⟩
    have hpos : 0 < capacity := by decide
    show w.buf.length = 0
    omega

theorem always_writeCold :
    (writeCold bytes).Always (machine draws) (OnlyData w.handle d) (Took bytes w d) w d := by
  refine .bind always_makeRoom (fun _ w' d' _ h => .get ?_) fun _ _ _ _ h => h.1
  obtain ⟨hfed, hempty⟩ := h
  have htook {r : Except Fault ℕ} {w'' : BufWriter} {d'' : Disk} (h : Took bytes w' d' r w'' d'') :
      Took bytes w d r w'' d'' := by
    cases r with
    | ok n => exact hfed.trans h
    | error e => exact hfed.trans h
  refine .ite (fun hle => ?_) fun _ => ?_
  · refine always_attempt.mpr ⟨hfed.only, fun r d'' hstep => ?_⟩
    rcases step_write hstep with ⟨e, rfl, rfl⟩ | ⟨n, -, rfl, rfl⟩
    · exact ⟨hfed.only, hfed⟩
    -- What is written to the file directly comes behind what was buffered.
    have hwrite : Fed (bytes.take n) w' w' d' (d'.append w'.handle (bytes.take n)) := by
      refine ⟨onlyData_append, rfl, ?_⟩
      rw [data_append_self, hempty hle rfl, List.append_nil, List.append_nil]
    exact ⟨(hfed.trans hwrite).only, hfed.trans hwrite⟩
  · have honly : ∀ d'', OnlyData w'.handle d' d'' → OnlyData w.handle d d'' :=
      fun _ h => hfed.only.trans (hfed.handle ▸ h)
    exact always_writeToBuffer.mono honly fun _ _ _ _ => htook

theorem always_write :
    (write bytes).Always (machine draws) (OnlyData w.handle d) (Took bytes w d) w d :=
  .get (.ite (fun _ => always_writeToBuffer) fun _ => always_writeCold)

end BufWriter

/-! ## What spares the target -/

/-- The target has its file, and the file its content; new files may have been created. -/
structure Spares (t : Path) (d d' : Disk) : Prop where
  names : d'.names t = d.names t
  content : d'.content t = d.content t
  next : d.next ≤ d'.next

section

variable {t : Path} {i : ℕ}

theorem Spares.refl : Spares t d d := ⟨rfl, rfl, Nat.le_refl _⟩

theorem Spares.trans (h : Spares t d d') (h' : Spares t d' d'') : Spares t d d'' :=
  ⟨h'.names.trans h.names, h'.content.trans h.content, Nat.le_trans h.next h'.next⟩

theorem spares_unlink {p : Path} (h : t ≠ p) : Spares t d (d.unlink p) :=
  ⟨names_unlink_of_ne h, content_unlink_of_ne h, Nat.le_refl _⟩

theorem spares_create {p : Path} (h : t ≠ p) : Spares t d (d.create p) :=
  ⟨names_create_of_ne h, content_create_of_ne h, Nat.le_succ _⟩

theorem spares_of_onlyData (h : OnlyData i d d') (ht : d.names t ≠ some i) : Spares t d d' :=
  ⟨congrFun h.names t, h.content ht, Nat.le_of_eq h.next.symm⟩

end

namespace FileMoF

section

variable {tempDir : String} {t : Path} {f f' : FileMoF} {σ : Type} {x : σ} {n : ℕ}

/-- Names of temporary files do not collide with that of the target. -/
def Apart (draws : List ℕ → Bool) (tempDir : String) (t : Path) : Prop :=
  ∀ ns name, draws ns → tempName ns = some name → t ≠ ⟨tempDir, name⟩

theorem always_generateName :
    (generateName : Method Call Fault σ String).Always (machine draws) (· = d)
      (fun r y d' => y = x ∧ d' = d ∧ ∀ name, r = .ok name → ∃ ns, draws ns ∧ tempName ns = some name)
      x d := by
  refine .perform rfl fun r d' hstep => ?_
  obtain ⟨rfl, hdraws⟩ := step_draw hstep
  cases r with
  | none => exact ⟨rfl, rfl, rfl, nofun⟩
  | some ns =>
    cases hname : tempName ns with
    | none =>
      simp only [hname]
      exact ⟨rfl, rfl, rfl, nofun⟩
    | some name =>
      simp only [hname]
      refine ⟨rfl, rfl, rfl, fun name' h => ⟨ns, hdraws ns rfl, ?_⟩⟩
      cases h
      exact hname

/-- A temporary file that is new, with a writer. Its number is `n` or above. -/
structure Backing (tempDir : String) (t : Path) (n : ℕ) (inner : Path × BufWriter) (d : Disk) :
    Prop where
  dir : inner.1.dir = tempDir
  ne : t ≠ inner.1
  file : d.names inner.1 = some inner.2.handle
  data : d.data inner.2.handle = []
  buf : inner.2.buf = []
  le : n ≤ inner.2.handle

theorem always_newBacking (hapart : Apart draws tempDir t) (attempts : ℕ) :
    (newBacking tempDir attempts : Method Call Fault σ _).Always (machine draws) (Spares t d)
      (fun r y d' => y = x ∧ Spares t d d' ∧
        ∀ inner, r = .ok inner → Backing tempDir t d.next inner d') x d := by
  induction attempts with
  | zero => exact ⟨.refl, rfl, .refl, nofun⟩
  | succ attempts ih =>
    have hspares : ∀ d', d' = d → Spares t d d' := by
      rintro d' rfl
      exact .refl
    refine .bind (always_generateName.mono hspares fun _ _ _ _ => id) (fun name y d' _ h => ?_)
      fun e y d' _ h => ?_
    · obtain ⟨rfl, rfl, hdraws⟩ := h
      obtain ⟨ns, hns, hname⟩ := hdraws name rfl
      have hne : t ≠ ⟨tempDir, name⟩ := hapart ns name hns hname
      refine .perform .refl fun r d'' hstep => ?_
      rcases step_createNew hstep with ⟨e, rfl, rfl⟩ | ⟨rfl, -, rfl⟩
      · exact ih
      · refine ⟨spares_create hne, rfl, spares_create hne, fun inner h => ?_⟩
        cases h
        exact ⟨rfl, hne, names_create_self, data_create_self, rfl, Nat.le_refl _⟩
    · exact ⟨h.1, hspares d' h.2.1, nofun⟩

/-- Between two cycles. The writer can still have the target open: then there is nothing left in its
buffer. -/
structure Idle (tempDir : String) (t : Path) (f : FileMoF) (d : Disk) : Prop where
  target : f.target = t
  dir : f.inner.1.dir = tempDir
  ne : t ≠ f.inner.1
  lt : f.inner.2.handle < d.next
  buf : d.names t = some f.inner.2.handle → f.inner.2.buf = []

theorem Idle.spares (h : Idle tempDir t f d) (hs : Spares t d d') :
    Idle tempDir t f d' where
  target := h.target
  dir := h.dir
  ne := h.ne
  lt := Nat.lt_of_lt_of_le h.lt hs.next
  buf hnames := h.buf (hs.names ▸ hnames)

/-- While a snapshot is written: so much of it has been taken, and none of it is in the target. -/
structure Loaded (tempDir : String) (t : Path) (bytes : List UInt8) (f : FileMoF) (d : Disk) :
    Prop where
  target : f.target = t
  dir : f.inner.1.dir = tempDir
  ne : t ≠ f.inner.1
  file : d.names f.inner.1 = some f.inner.2.handle
  apart : d.names t ≠ some f.inner.2.handle
  stream : d.data f.inner.2.handle ++ f.inner.2.buf = bytes

theorem Loaded.idle (h : Loaded tempDir t bytes f d) : Idle tempDir t f d where
  target := h.target
  dir := h.dir
  ne := h.ne
  lt := d.names_lt f.inner.1 f.inner.2.handle h.file
  buf hnames := absurd hnames h.apart

/-! ## Rewinding -/

/-- Dropping a writer does not touch the target. -/
theorem always_drop {w : BufWriter} (hbuf : d.names t = some w.handle → w.buf = []) :
    (w.drop : Method Call Fault σ Unit).Always (machine draws) (Spares t d)
      (fun r y d' => r = .ok () ∧ y = x ∧ Spares t d d' ∧ OnlyData w.handle d d') x d := by
  by_cases ht : d.names t = some w.handle
  · obtain ⟨handle, buf⟩ := w
    obtain rfl : buf = [] := hbuf ht
    exact ⟨.refl, rfl, rfl, .refl, .refl⟩
  · have hspares : ∀ d', OnlyData w.handle d d' → Spares t d d' :=
      fun _ h => spares_of_onlyData h ht
    exact .discard (BufWriter.always_flush.mono hspares fun _ _ d' honly _ =>
      ⟨rfl, rfl, hspares d' honly, honly⟩)

theorem always_removeBacking (hne : t ≠ f.inner.1) :
    removeBacking.Always (machine draws) (Spares t d)
      (fun _ f' d' => f' = f ∧ Spares t d d') f d := by
  refine .get (.perform .refl fun r d' hstep => ?_)
  rcases step_removeFile hstep with ⟨e, rfl, rfl⟩ | ⟨rfl, rfl⟩
  · cases e with
    | notFound | writeZero | invalidFilename | other => exact ⟨.refl, rfl, .refl⟩
  · exact ⟨spares_unlink hne, rfl, spares_unlink hne⟩

theorem always_rewind (hapart : Apart draws tempDir t) (h : Idle tempDir t f d) :
    (rewind tempDir).Always (machine draws) (Spares t d)
      (fun r f' d' => Spares t d d' ∧ Idle tempDir t f' d' ∧
        (r = .ok () → Loaded tempDir t [] f' d')) f d := by
  refine .bind (always_removeBacking h.ne) (fun _ f₁ d₁ _ h₁ => ?_) fun _ f₁ d₁ _ h₁ => ?_
  · obtain ⟨rfl, hs₁⟩ := h₁
    refine .bind ((always_newBacking hapart 3).mono (fun _ => hs₁.trans) fun _ _ _ _ => id)
      (fun inner f₂ d₂ _ h₂ => .get ?_) fun _ f₂ d₂ _ h₂ => ?_
    · obtain ⟨rfl, hs₂, hbacking⟩ := h₂
      have hs : Spares t d d₂ := hs₁.trans hs₂
      obtain ⟨hdir, hne, hfile, hdata, hbuf, hle⟩ := hbacking inner rfl
      refine .bind ((always_drop (h.spares hs).buf).mono (fun _ => hs.trans) fun _ _ _ _ => id)
        (fun _ f₃ d₃ hs₃ h₃ => ?_) fun _ _ _ _ h₃ => nomatch h₃.1
      obtain ⟨-, rfl, -, honly⟩ := h₃
      -- The old writer has another file than the new one.
      have hold : inner.2.handle ≠ f₃.inner.2.handle := by
        have hlt : f₃.inner.2.handle < d₁.next := (h.spares hs₁).lt
        omega
      have hloaded : Loaded tempDir t [] { f₃ with inner } d₃ := by
        refine ⟨h.target, hdir, hne, honly.names ▸ hfile, fun hnames => ?_, ?_⟩
        · rw [hs₃.names, ← hs₁.names] at hnames
          exact absurd (d₁.names_lt t _ hnames) (Nat.not_lt.mpr hle)
        · rw [honly.data _ hold, hdata, hbuf]
          rfl
      exact ⟨hs₃, hs₃, hloaded.idle, fun _ => hloaded⟩
    · obtain ⟨rfl, hs₂, -⟩ := h₂
      exact ⟨hs₁.trans hs₂, h.spares (hs₁.trans hs₂), nofun⟩
  · obtain ⟨rfl, hs₁⟩ := h₁
    exact ⟨hs₁, h.spares hs₁, nofun⟩

/-! ## Writing -/

theorem Loaded.fed {w : BufWriter} (h : Loaded tempDir t bytes f d)
    (hfed : BufWriter.Fed bytes' f.inner.2 w d d') :
    Loaded tempDir t (bytes ++ bytes') { f with inner := (f.inner.1, w) } d' where
  target := h.target
  dir := h.dir
  ne := h.ne
  file := by
    rw [hfed.only.names, hfed.handle]
    exact h.file
  apart := by
    rw [hfed.only.names, hfed.handle]
    exact h.apart
  stream := by
    rw [hfed.handle, hfed.stream, h.stream]

theorem Loaded.spares (h : Loaded tempDir t bytes f d) (honly : OnlyData f.inner.2.handle d d') :
    Spares t d d' := spares_of_onlyData honly h.apart

theorem always_onWriter {α : Type} {m : Method Call Fault BufWriter α} {M : Machine Call Disk}
    {C : Disk → Prop} {Q : Except Fault α → FileMoF → Disk → Prop}
    (h : m.Always M C (fun r w d => Q r { f with inner := (f.inner.1, w) } d) f.inner.2 d) :
    (onWriter m).Always M C Q f d := .onPart h

theorem always_write (h : Loaded tempDir t bytes f d) :
    (write bytes').Always (machine draws) (Spares t d)
      (fun r f' d' => ∃ n, Loaded tempDir t (bytes ++ bytes'.take n) f' d' ∧
        ∀ n', r = .ok n' → n' = n) f d := by
  refine always_onWriter (BufWriter.always_write.mono (fun _ => h.spares) fun r w d' _ hw => ?_)
  cases r with
  | ok n => exact ⟨n, h.fed hw, fun _ hn => (Except.ok.inj hn).symm⟩
  | error e => exact ⟨0, h.fed hw, nofun⟩

theorem always_writeAll {fuel : ℕ} (hfuel : bytes'.length ≤ fuel)
    (h : Loaded tempDir t bytes f d) :
    (writeAll fuel bytes').Always (machine draws) (Spares t d)
      (fun r f' d' => ∃ done, Loaded tempDir t (bytes ++ done) f' d' ∧
        (r = .ok () → done = bytes')) f d := by
  induction fuel generalizing bytes bytes' f d with
  | zero =>
    obtain rfl : bytes' = [] := List.eq_nil_of_length_eq_zero (Nat.le_zero.mp hfuel)
    exact ⟨.refl, [], by rwa [List.append_nil], fun _ => rfl⟩
  | succ fuel ih =>
    refine .ite (fun hnil => ?_) fun hnil => ?_
    · subst hnil
      exact ⟨.refl, [], by rwa [List.append_nil], fun _ => rfl⟩
    refine .bind (always_write h) (fun n f' d' hs hw => ?_) fun e f' d' _ hw => ?_
    · obtain ⟨n', hloaded, hn⟩ := hw
      obtain rfl : n = n' := hn n rfl
      refine .ite (fun _ => ⟨hs, _, hloaded, nofun⟩) fun hn => ?_
      have hlength : (bytes'.drop n).length ≤ fuel := by
        rw [List.length_drop]
        omega
      refine (ih hlength hloaded).mono (fun _ => hs.trans) fun r f'' d'' _ hw => ?_
      obtain ⟨done, hloaded, hdone⟩ := hw
      refine ⟨bytes'.take n ++ done, by rwa [← List.append_assoc], fun hr => ?_⟩
      rw [hdone hr, List.take_append_drop]
    · obtain ⟨n, hloaded, -⟩ := hw
      exact ⟨_, hloaded, nofun⟩

/-! ## Flushing -/

/-- What is in the target while a cycle goes on, and behind it. -/
def Swaps (t : Path) (bytes : List UInt8) (d d' : Disk) : Prop :=
  d'.content t = d.content t ∨ d'.content t = some bytes

theorem always_flush (h : Loaded tempDir t bytes f d) :
    flush.Always (machine draws) (Swaps t bytes d)
      (fun r f' d' => Idle tempDir t f' d' ∧ (r = .ok () → d'.content t = some bytes ∧
        (t.dir = tempDir → d'.Durable t bytes))) f d := by
  have hspares : ∀ d', Spares t d d' → Swaps t bytes d d' := fun _ hs => .inl hs.content
  have hbuffer : (onWriter BufWriter.flush).Always (machine draws) (Swaps t bytes d)
      (fun r f' d' => Spares t d d' ∧ Loaded tempDir t bytes f' d' ∧
        (r = .ok () → f'.inner.2.buf = [])) f d := by
    refine always_onWriter (BufWriter.always_flush.mono (fun d' ho => hspares d' (h.spares ho))
      fun r w d' ho hw => ⟨h.spares ho, ?_, hw.2⟩)
    exact List.append_nil bytes ▸ h.fed hw.1
  refine .bind hbuffer (fun _ f₁ d₁ hC₁ h₁ => .get ?_)
    fun _ f₁ d₁ _ h₁ => ⟨h₁.2.1.idle, fun hr => by cases hr⟩
  obtain ⟨hs₁, h₁, hbuf⟩ := h₁
  have hdata : d₁.data f₁.inner.2.handle = bytes := by
    have hstream := h₁.stream
    rwa [hbuf rfl, List.append_nil] at hstream
  refine .attempt hC₁ fun r d₂ hstep => ?_
  rcases step_syncAll hstep with ⟨e, rfl, rfl⟩ | ⟨rfl, rfl⟩
  · exact .inl ⟨e, rfl, hC₁, h₁.idle, fun hr => by cases hr⟩
  refine .inr ⟨(), rfl, .attempt hC₁ fun r d₃ hstep => ?_⟩
  rcases step_rename hstep with ⟨e, rfl, rfl⟩ | ⟨i, hi, rfl, rfl⟩
  · have hs₂ := spares_of_onlyData onlyData_sync h₁.apart
    exact .inl ⟨e, rfl, hC₁, h₁.idle.spares hs₂, fun hr => by cases hr⟩
  obtain rfl : f₁.inner.2.handle = i := Option.some.inj (h₁.file.symm.trans hi)
  obtain rfl := h₁.target
  have hnames := names_move (q := f₁.target) hi
  have hdata : ((d₁.sync f₁.inner.2.handle).move f₁.inner.1 f₁.target f₁.inner.2.handle hi).data
      f₁.inner.2.handle = bytes := (congrFun (data_move hi) _).trans hdata
  have hbefore : ((d₁.sync f₁.inner.2.handle).move f₁.inner.1 f₁.target f₁.inner.2.handle
      hi).dataBefore f₁.inner.2.handle = [] :=
    (congrFun (dataBefore_move hi) _).trans (Function.update_self _ _ _)
  generalize (d₁.sync f₁.inner.2.handle).move f₁.inner.1 f₁.target f₁.inner.2.handle hi = d₃
    at hnames hdata hbefore
  have hcontent : d₃.content f₁.target = some bytes := by
    rw [content, hnames, ← hdata]
    rfl
  have hidle : Idle tempDir f₁.target f₁ d₃ :=
    ⟨rfl, h₁.dir, h₁.ne, d₃.names_lt _ _ hnames, fun _ => hbuf rfl⟩
  refine .inr ⟨(), rfl, .attempt (.inr hcontent) fun r d₄ hstep => ?_⟩
  obtain rfl := step_openDir hstep
  cases r with
  | error e => exact .inl ⟨e, rfl, .inr hcontent, hidle, fun hr => by cases hr⟩
  | ok =>
    refine .inr ⟨(), rfl, always_attempt.mpr ⟨.inr hcontent, fun r d₅ hstep => ?_⟩⟩
    rcases step_syncDir hstep with ⟨e, rfl, rfl⟩ | ⟨rfl, rfl⟩
    · exact ⟨.inr hcontent, hidle, fun hr => by cases hr⟩
    · refine ⟨.inr hcontent, ⟨rfl, h₁.dir, h₁.ne, hidle.lt, hidle.buf⟩, fun _ => ⟨hcontent, ?_⟩⟩
      intro hdir
      exact durable_of_synced hnames (if_pos (hdir.trans h₁.dir.symm)) hdata hbefore

/-! ## Cycles -/

theorem Swaps.of_spares (h : Swaps t bytes d d') (hs : Spares t d'' d) : Swaps t bytes d'' d' := by
  rw [Swaps, ← hs.content]
  exact h

theorem always_cycle (hapart : Apart draws tempDir t) (h : Idle tempDir t f d) :
    (cycle tempDir bytes).Always (machine draws) (Swaps t bytes d)
      (fun r f' d' => Idle tempDir t f' d' ∧ (r = .ok () → d'.content t = some bytes ∧
        (t.dir = tempDir → d'.Durable t bytes))) f d := by
  have hspares : ∀ d', Spares t d d' → Swaps t bytes d d' := fun _ hs => .inl hs.content
  refine .bind ((always_rewind hapart h).mono hspares fun _ _ _ _ => id)
    (fun _ f₁ d₁ _ h₁ => ?_) fun _ f₁ d₁ _ h₁ => ⟨h₁.2.1, nofun⟩
  obtain ⟨hs₁, -, h₁⟩ := h₁
  have hwrite : (writeAll bytes.length bytes).Always (machine draws) (Swaps t bytes d)
      (fun r f' d' => Spares t d d' ∧ ∃ done, Loaded tempDir t done f' d' ∧
        (r = .ok () → done = bytes)) f₁ d₁ :=
    (always_writeAll (Nat.le_refl _) (h₁ rfl)).mono (fun d' hs => hspares d' (hs₁.trans hs))
      fun _ _ _ hs hw => ⟨hs₁.trans hs, hw⟩
  refine .bind hwrite (fun _ f₂ d₂ _ h₂ => ?_) fun _ f₂ d₂ _ h₂ => ?_
  · obtain ⟨hs₂, done, hloaded, hdone⟩ := h₂
    obtain rfl := hdone rfl
    exact (always_flush hloaded).mono (fun _ h => h.of_spares hs₂) fun _ _ _ _ => id
  · obtain ⟨-, done, hloaded, -⟩ := h₂
    exact ⟨hloaded.idle, nofun⟩

/-- Every moment of a cycle, wherever it fails, and what it leaves behind. -/
theorem always_persistCycle (bytes : List UInt8) (hapart : Apart draws tempDir t) (h : Idle tempDir t f d) :
    (persistCycle tempDir bytes).Always (machine draws) (Swaps t bytes d)
      (fun r f' d' => Idle tempDir t f' d' ∧ (r = .ok () → d'.content t = some bytes ∧
        (t.dir = tempDir → d'.Durable t bytes))) f d := by
  refine .tryCatch (always_cycle hapart h) (fun _ _ _ _ => id) fun e f₁ d₁ hC h₁ => ?_
  obtain ⟨hidle, -⟩ := h₁
  refine .get (.ite (fun _ => ?_) fun _ => ⟨hC, hidle, nofun⟩)
  have hswaps : ∀ d', Spares t d₁ d' → Swaps t bytes d d' := by
    intro d' hs
    rw [Swaps, hs.content]
    exact hC
  refine .bind ((always_drop hidle.buf).mono hswaps fun _ _ _ _ => id) (fun _ f₂ d₂ _ h₂ => ?_)
    fun _ _ _ _ h₂ => nomatch h₂.1
  obtain ⟨-, rfl, hs, -⟩ := h₂
  exact ⟨hswaps d₂ hs, hidle.spares hs, nofun⟩

theorem always_new (hapart : Apart draws tempDir t) :
    (new tempDir t).Always (machine draws) (Spares t d)
      (fun r _ d' => Spares t d d' ∧ ∀ f, r = .ok f → Idle tempDir t f d') () d := by
  refine .bind (always_newBacking hapart 3) (fun inner _ d₁ hs h₁ => ?_) fun _ _ _ hs _ => ⟨hs, nofun⟩
  obtain ⟨-, -, hbacking⟩ := h₁
  obtain ⟨hdir, hne, hfile, -, hbuf, -⟩ := hbacking inner rfl
  refine ⟨hs, hs, fun f h => ?_⟩
  cases h
  exact ⟨rfl, hdir, hne, d₁.names_lt _ _ hfile, fun _ => hbuf⟩

end

/-- A file that was made for the target, and has been through these cycles, the last one first: the
bytes of each, and whether it succeeded. A panic is the end of the thread. -/
inductive Cycles (draws : List ℕ → Bool) (tempDir : String) (t : Path) (d₀ : Disk) :
    List (List UInt8 × Bool) → FileMoF → Disk → Prop where
  | new {f : FileMoF} {d : Disk}
    (h : (new tempDir t).Returns (machine draws) () d₀ (.ok f) () d) : Cycles draws tempDir t d₀ [] f d
  | cycle {cycles : List (List UInt8 × Bool)} {f f' : FileMoF} {d d' : Disk} {bytes : List UInt8}
    {r : Except Fault Unit} (hcycles : Cycles draws tempDir t d₀ cycles f d)
    (h : (persistCycle tempDir bytes).Returns (machine draws) f d r f' d') (hr : r ≠ .error .panic) :
    Cycles draws tempDir t d₀ ((bytes, r.isOk) :: cycles) f' d'

/-- What the target may have after these cycles: nothing that is older than the last one that
succeeded. -/
def allowed (initial : Option (List UInt8)) :
    List (List UInt8 × Bool) → List (Option (List UInt8))
  | [] => [initial]
  | (bytes, true) :: _ => [some bytes]
  | (bytes, false) :: cycles => some bytes :: allowed initial cycles

variable {tempDir : String} {t : Path} {f f' : FileMoF} {d₀ : Disk}
  {cycles : List (List UInt8 × Bool)}

theorem Cycles.invariant (hapart : Apart draws tempDir t)
    (h : Cycles draws tempDir t d₀ cycles f d) :
    Idle tempDir t f d ∧ d.content t ∈ allowed (d₀.content t) cycles := by
  induction h with
  | new h =>
    obtain ⟨hs, hidle⟩ := (always_new hapart).returns h
    exact ⟨hidle _ rfl, List.mem_singleton.mpr hs.content⟩
  | @cycle cycles f f' d d' bytes r _ h _ ih =>
    obtain ⟨hidle, hcontent⟩ := ih
    have hcycle := always_persistCycle bytes hapart hidle
    obtain ⟨hidle', hok⟩ := hcycle.returns h
    refine ⟨hidle', ?_⟩
    cases r with
    | ok => exact List.mem_singleton.mpr (hok rfl).1
    | error e =>
      rcases hcycle.moment h.moment with hold | hnew
      · exact List.mem_cons_of_mem _ (hold ▸ hcontent)
      · exact hnew ▸ List.mem_cons_self

/-- At every moment the target has its content from before the first cycle or all the bytes of one
cycle, and nothing that is older than the last cycle that succeeded. The next cycle may have put its
own bytes there, wherever it is. -/
theorem content_mem_allowed (hapart : Apart draws tempDir t)
    (h : Cycles draws tempDir t d₀ cycles f d) :
    d.content t ∈ allowed (d₀.content t) cycles ∧
      ∀ bytes d', (persistCycle tempDir bytes).Moment (machine draws) f d d' →
        d'.content t ∈ some bytes :: allowed (d₀.content t) cycles := by
  obtain ⟨hidle, hcontent⟩ := h.invariant hapart
  refine ⟨hcontent, fun bytes d' hmoment => ?_⟩
  rcases (always_persistCycle _ hapart hidle).moment hmoment with hold | hnew
  · exact List.mem_cons_of_mem _ (hold ▸ hcontent)
  · exact hnew ▸ List.mem_cons_self

/-! ## A run without a failure -/

section

variable {ns : List ℕ} {name : String} {p : Path} {i : ℕ} {σ : Type} {x : σ}

theorem returns_newBacking (hns : draws ns) (hlength : ns.length = 32)
    (hname : tempName ns = some name) (hfree : d.names ⟨tempDir, name⟩ = none) (attempts : ℕ) :
    (newBacking tempDir (attempts + 1) : Method Call Fault σ _).Returns (machine draws) x d
      (.ok (⟨tempDir, name⟩, ⟨d.next, []⟩)) x (d.create ⟨tempDir, name⟩) := by
  have hgenerate : (generateName : Method Call Fault σ _).Returns (machine draws) x d
      (.ok name) x d := by
    refine .perform (step_draw_some hlength hns) ?_
    simp only [hname]
    exact .pure
  exact .bind hgenerate (.perform (step_createNew_ok hfree) .pure)

theorem returns_rewind (hns : draws ns) (hlength : ns.length = 32)
    (hname : tempName ns = some name) (h : d.names ⟨tempDir, name⟩ = some i) :
    (rewind tempDir).Returns (machine draws) ⟨t, (⟨tempDir, name⟩, ⟨i, []⟩)⟩ d (.ok ())
      ⟨t, (⟨tempDir, name⟩, ⟨d.next, []⟩)⟩
      ((d.unlink ⟨tempDir, name⟩).create ⟨tempDir, name⟩) := by
  refine .bind (.get (.perform (step_removeFile_ok h) .pure)) ?_
  refine .bind (returns_newBacking hns hlength hname names_unlink_self 2) ?_
  exact .get (.bind .pure .pure)

theorem returns_onWriter {α : Type} {m : Method Call Fault BufWriter α} {M : Machine Call Disk}
    {w w' : BufWriter} {r : Except Fault α} (h : m.Returns M w d r w' d') :
    (onWriter m).Returns M ⟨t, (p, w)⟩ d r ⟨t, (p, w')⟩ d' := .onPart h

theorem returns_writeAll (hne : bytes ≠ []) (hlength : bytes.length < BufWriter.capacity) :
    (writeAll bytes.length bytes).Returns (machine draws) ⟨t, (p, ⟨i, []⟩)⟩ d (.ok ())
      ⟨t, (p, ⟨i, bytes⟩)⟩ d := by
  have hwrite : (BufWriter.write bytes).Returns (machine draws) ⟨i, []⟩ d (.ok bytes.length)
      ⟨i, bytes⟩ d := by
    refine .get ?_
    rw [if_pos (by exact hlength)]
    exact .get (.set .pure)
  obtain ⟨n, hn⟩ := Nat.exists_eq_add_one_of_ne_zero (mt List.eq_nil_of_length_eq_zero hne)
  rw [hn, writeAll, if_neg hne]
  refine .bind (returns_onWriter hwrite) ?_
  rw [if_neg (by omega), List.drop_length]
  cases n with
  | zero => exact .pure
  | succ n => exact .pure

theorem returns_flushBuffer (hne : bytes ≠ []) :
    BufWriter.flush.Returns (machine draws) ⟨i, bytes⟩ d (.ok ()) ⟨i, []⟩ (d.append i bytes) := by
  obtain ⟨n, hn⟩ := Nat.exists_eq_add_one_of_ne_zero (mt List.eq_nil_of_length_eq_zero hne)
  refine .get ?_
  show (BufWriter.flushBuf bytes.length).Returns _ _ _ _ _ _
  rw [hn]
  refine .get ?_
  rw [if_neg (by exact hne)]
  refine .attempt step_write_ok ?_
  rw [if_neg (by exact hn ▸ Nat.succ_ne_zero n)]
  refine .set ?_
  show (BufWriter.flushBuf n).Returns _ ⟨i, bytes.drop bytes.length⟩ _ _ _ _
  rw [List.drop_length]
  cases n with
  | zero => exact .pure
  | succ n => exact .pure

theorem returns_flush (hne : bytes ≠ []) (h : ((d.append i bytes).sync i).names p = some i) :
    flush.Returns (machine draws) ⟨t, (p, ⟨i, bytes⟩)⟩ d (.ok ()) ⟨t, (p, ⟨i, []⟩)⟩
      ((((d.append i bytes).sync i).move p t i h).syncNames p.dir) := by
  refine .bind (returns_onWriter (returns_flushBuffer hne)) (.get ?_)
  refine .attempt (b := ()) rfl (.attempt (b := ()) (step_rename_ok h) ?_)
  exact .attempt (b := ()) rfl (.call (r := .ok ()) rfl .pure)

/-- Nothing fails, but the directory of the target is not synced. -/
theorem exists_persisted (draws : List ℕ → Bool) (d : Disk) (hdir : t.dir ≠ tempDir)
    (hns : draws (List.replicate 32 0)) (hfree : ∀ name, d.names ⟨tempDir, name⟩ = none)
    (hne : bytes ≠ []) (hbytes : bytes.length < BufWriter.capacity) :
    ∃ f d₁ f' d', (new tempDir t).Returns (machine draws) () d (.ok f) () d₁ ∧
      (persistCycle tempDir bytes).Returns (machine draws) f d₁ (.ok ()) f' d' ∧
      d.names t ∈ d'.namesBefore t := by
  have hlength : (List.replicate 32 0).length = 32 := List.length_replicate
  obtain ⟨name, hname⟩ : ∃ name, tempName (List.replicate 32 0) = some name := ⟨_, rfl⟩
  specialize hfree name
  have hp : t ≠ ⟨tempDir, name⟩ := by
    rintro rfl
    exact hdir rfl
  generalize hq : (⟨tempDir, name⟩ : Path) = q at hp hfree
  have hnew : (new tempDir t).Returns (machine draws) () d (.ok ⟨t, (q, ⟨d.next, []⟩)⟩) ()
      (d.create q) := by
    subst hq
    exact .bind (returns_newBacking hns hlength hname hfree 2) .pure
  have hrewind : (rewind tempDir).Returns (machine draws) ⟨t, (q, ⟨d.next, []⟩)⟩ (d.create q)
      (.ok ()) ⟨t, (q, ⟨d.next + 1, []⟩)⟩ (((d.create q).unlink q).create q) := by
    subst hq
    exact returns_rewind hns hlength hname names_create_self
  have hfile : (((((d.create q).unlink q).create q).append (d.next + 1) bytes).sync
      (d.next + 1)).names q = some (d.next + 1) := names_create_self
  refine ⟨_, _, _, _, hnew, .tryCatch (.bind hrewind (.bind (returns_writeAll hne hbytes)
    (returns_flush hne hfile))), ?_⟩
  have hold : (((((d.create q).unlink q).create q).append (d.next + 1) bytes).sync
      (d.next + 1)).names t = d.names t := by
    show (((d.create q).unlink q).create q).names t = d.names t
    rw [names_create_of_ne hp, names_unlink_of_ne hp, names_create_of_ne hp]
  have hnext : d.names t ≠ some (d.next + 1) := by
    intro h
    have hlt := d.names_lt t (d.next + 1) h
    omega
  have hsync : t.dir ≠ q.dir := by
    subst hq
    exact hdir
  show _ ∈ if t.dir = q.dir then [] else _
  rw [if_neg hsync, ← hold]
  exact namesBefore_move hfile (hold ▸ hnext)

end

namespace Example

def n1 : Path := ⟨"./node", "n1"⟩

/-- After a success, a cycle whose first call is denied: the snapshot of the success is still
there, at least until that of the next cycle is. -/
theorem content_denied : ∃ f d,
    Cycles (fun _ => true) "/tmp" n1 .empty [([0x5B, 0x5D], false), ([0x7B, 0x7D], true)] f d ∧
      d.content n1 ∈ [some [0x5B, 0x5D], some [0x7B, 0x7D]] ∧
      ∀ bytes d', (persistCycle "/tmp" bytes).Moment (machine fun _ => true) f d d' →
        d'.content n1 ∈ [some bytes, some [0x5B, 0x5D], some [0x7B, 0x7D]] := by
  have hdir : n1.dir ≠ "/tmp" := by decide
  have hapart : Apart (fun _ => true) "/tmp" n1 := by
    intro ns name _ _ h
    exact hdir (congrArg Path.dir h)
  have hne : ([0x7B, 0x7D] : List UInt8) ≠ [] := nofun
  have hlength : ([0x7B, 0x7D] : List UInt8).length < BufWriter.capacity := by decide
  obtain ⟨f, d, f', d', hnew, hcycle, -⟩ :=
    exists_persisted (fun _ => true) .empty hdir rfl (fun _ => rfl) hne hlength
  have hdenied : (persistCycle "/tmp" [0x5B, 0x5D]).Returns (machine fun _ => true) f' d'
      (.error (.io .other)) f' d' := .call (r := .error .other) rfl .pure
  have hcycles := (Cycles.new hnew).cycle hcycle nofun |>.cycle hdenied nofun
  exact ⟨f', d', hcycles, content_mem_allowed hapart hcycles⟩

end Example

/-! ## Losses of power -/

/-- Whenever a cycle has succeeded, a loss of power leaves its bytes in the target. -/
def FlushDurable (tempDir : String) (t : Path) : Prop :=
  ∀ draws d₀ cycles f d bytes f' d', Apart draws tempDir t → Cycles draws tempDir t d₀ cycles f d →
    (persistCycle tempDir bytes).Returns (machine draws) f d (.ok ()) f' d' → d'.Durable t bytes

theorem flushDurable_of_dir (hdir : t.dir = tempDir) : FlushDurable tempDir t := by
  intro draws d₀ cycles f d bytes f' d' hapart hcycles hreturns
  obtain ⟨hidle, -⟩ := hcycles.invariant hapart
  obtain ⟨-, hok⟩ := (always_persistCycle _ hapart hidle).returns hreturns
  exact (hok rfl).2 hdir

/-- On a disk without the target, its name is not durable. -/
theorem not_flushDurable (hdir : t.dir ≠ tempDir) : ¬ FlushDurable tempDir t := by
  intro h
  have hne : ([0x7B, 0x7D] : List UInt8) ≠ [] := nofun
  have hlength : ([0x7B, 0x7D] : List UInt8).length < BufWriter.capacity := by decide
  obtain ⟨f, d, f', d', hnew, hcycle, hbefore⟩ :=
    exists_persisted (fun _ => true) .empty hdir rfl (fun _ => rfl) hne hlength
  have hapart : Apart (fun _ => true) tempDir t := by
    rintro ns name - - rfl
    exact hdir rfl
  exact not_durable hbefore (h _ _ _ _ _ _ _ _ hapart (.new hnew) hcycle)

/-- The flush syncs the directory of the temporary file, and not that of the target. -/
theorem flushDurable_iff : FlushDurable tempDir t ↔ t.dir = tempDir :=
  ⟨fun h => by_contra fun hdir => not_flushDurable hdir h, flushDurable_of_dir⟩

namespace Example

theorem not_flushDurable_n1 : ¬ FlushDurable "/tmp" n1 := not_flushDurable (by decide)

end Example

end FileMoF

end Miniraft
