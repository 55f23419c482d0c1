import SaltsUtils.Cron.Next
import Mathlib.Data.List.Nodup

/-!
# The runner

`salts_cron_runner_advance` of `src/cron/src/salts_cron.c` under any number of callers.
-/

set_option autoImplicit false

namespace SaltsUtils.Cron

/-- A call of `salts_cron_runner_advance` after its locked section, with its return value once
it has returned. -/
structure RunnerCall where
  start_minute : ℤ
  current_minute : ℤ
  check : ℤ
  fired : ℕ
  result : Option ℕ
deriving DecidableEq

/-- The runner, the calls in the order of their locked sections, the times that they were
given, and the callbacks so far, each with the call that made it. -/
structure Runner where
  expr : SaltsCronExpr
  cursor_minute : ℤ := 0
  calls : List RunnerCall := []
  nows : List ℤ := []
  log : List (ℕ × ℤ) := []
deriving DecidableEq

inductive RunnerStep
  | advance (now : ℤ)
  | dispatch (call : ℕ)
deriving DecidableEq

def salts_cron_runner_create (expression : Option (List Char)) (callback : Bool) :
    Option Runner :=
  if expression.isNone || !callback then none
  else match salts_cron_parse expression true with
    | .ok expr => some { expr := expr }
    | .error _ => none

/-- The locked section: a clock that went back returns at once, any other call takes the
minutes after the cursor. -/
def runner_advance_locked (runner : Runner) (now : ℤ) : Runner :=
  let current_minute := cron_floor_minute now
  let start_minute :=
    if runner.cursor_minute = 0 then current_minute else runner.cursor_minute + 60
  if current_minute < runner.cursor_minute then
    { runner with
      calls := runner.calls ++ [⟨start_minute, current_minute, start_minute - 60, 0, some 0⟩]
      nows := runner.nows ++ [now] }
  else
    { runner with
      cursor_minute := current_minute
      calls := runner.calls ++ [⟨start_minute, current_minute, start_minute - 60, 0, none⟩]
      nows := runner.nows ++ [now] }

def runner_dispatch (zone : Zone) (runner : Runner) (i : ℕ) : Runner :=
  match runner.calls[i]? with
  | none => runner
  | some call =>
    if call.result.isSome then runner
    else match salts_cron_next zone (some runner.expr) call.check true with
      | .ok next_fire =>
        if next_fire > call.current_minute then
          { runner with calls := runner.calls.set i { call with result := some call.fired } }
        else
          { runner with
            calls := runner.calls.set i
              { call with check := next_fire, fired := call.fired + 1 }
            log := runner.log ++ [(i, next_fire)] }
      | .error _ =>
        { runner with calls := runner.calls.set i { call with result := some call.fired } }

def Runner.step (zone : Zone) (runner : Runner) : RunnerStep → Runner
  | .advance now => runner_advance_locked runner now
  | .dispatch i => runner_dispatch zone runner i

def Runner.run (zone : Zone) (runner : Runner) (steps : List RunnerStep) : Runner :=
  steps.foldl (Runner.step zone) runner

/-- The minutes that reached the callback, in order. -/
def Runner.delivered (runner : Runner) : List ℤ := runner.log.map Prod.snd

def Runner.deliveredBy (runner : Runner) (i : ℕ) : List (ℕ × ℤ) :=
  runner.log.filter fun entry => entry.1 = i

def Runner.Quiet (runner : Runner) : Prop := ∀ call ∈ runner.calls, call.result.isSome = true

instance (runner : Runner) : Decidable runner.Quiet :=
  inferInstanceAs (Decidable (∀ _ ∈ _, _))

def Runner.latest (runner : Runner) : ℤ := runner.nows.foldl max 0

theorem floor_minute_eq {t : ℤ} (h : 0 ≤ t) : cron_floor_minute t = t - t % 60 := by
  unfold cron_floor_minute
  rw [Int.tmod_eq_emod_of_nonneg h]

section Invariant
variable (zone : Zone) (expr : SaltsCronExpr)

/-- A whole minute that the expression accepts. -/
def Fires (m : ℤ) : Prop := m % 60 = 0 ∧ salts_cron_matches zone (some expr) m = true

def NextFire : Prop := ∀ check, 0 ≤ check →
  match salts_cron_next zone (some expr) check true with
  | .ok t => check < t ∧ Fires zone expr t ∧ ∀ m, check < m → Fires zone expr m → t ≤ m
  | .error _ => ∀ m, check < m → ¬ Fires zone expr m

/-- One call: it has delivered the minutes of its window up to `check`, and all of them once it
has returned. -/
structure RunnerCall.Sound (call : RunnerCall) : Prop where
  nonneg : 0 ≤ call.check
  whole : call.check % 60 = 0
  start : call.start_minute ≤ call.check + 60
  check : call.check < call.start_minute ∨ call.check ≤ call.current_minute
  complete : ∀ n, call.result = some n → n = call.fired ∧
    ∀ m, call.check < m → Fires zone expr m → call.current_minute < m

def Runner.Holds (runner : Runner) (i : ℕ) (m : ℤ) : Prop :=
  ∃ c, runner.calls[i]? = some c ∧ c.start_minute ≤ m ∧ m ≤ c.current_minute

/-- The windows of the calls are disjoint and cover the minutes from the first call to the
cursor, and the callbacks are the minutes that the calls have passed. -/
structure Runner.Sound (runner : Runner) : Prop where
  expr_eq : runner.expr = expr
  cursor : runner.cursor_minute = cron_floor_minute runner.latest
  nows_ge : ∀ now ∈ runner.nows, 60 ≤ now
  length : runner.nows.length = runner.calls.length
  call : ∀ (i : ℕ) c, runner.calls[i]? = some c → c.Sound zone expr
  disjoint : ∀ i j m, m % 60 = 0 → runner.Holds i m → runner.Holds j m → i = j
  covered : ∀ m, m % 60 = 0 → ((∃ i, runner.Holds i m) ↔
    ∃ first, runner.nows.head? = some first ∧ cron_floor_minute first ≤ m ∧
      m ≤ runner.cursor_minute)
  log_nodup : runner.log.Nodup
  log_mem : ∀ i m, (i, m) ∈ runner.log ↔ ∃ c, runner.calls[i]? = some c ∧ Fires zone expr m ∧
    c.start_minute ≤ m ∧ m ≤ c.check
  fired : ∀ (i : ℕ) c, runner.calls[i]? = some c → c.fired = (runner.deliveredBy i).length

end Invariant

section Locked
variable {zone : Zone} {expr : SaltsCronExpr} {runner : Runner}

theorem latest_nonneg (l : List ℤ) (a : ℤ) (h : 0 ≤ a) : 0 ≤ l.foldl max a ∧
    (∀ x ∈ l, x ≤ l.foldl max a) ∧ a ≤ l.foldl max a := by
  induction l generalizing a with
  | nil => simp [h]
  | cons x l ih =>
    obtain ⟨h₁, h₂, h₃⟩ := ih (max a x) (by omega)
    refine ⟨h₁, ?_, by simp only [List.foldl_cons]; omega⟩
    intro y hy
    simp only [List.foldl_cons]
    rcases List.mem_cons.mp hy with rfl | hy
    · omega
    · exact h₂ y hy

theorem Runner.Sound.cursor_cases (hs : runner.Sound zone expr) :
    (runner.nows = [] ∧ runner.cursor_minute = 0) ∨
      ∃ first, runner.nows.head? = some first ∧ 60 ≤ first ∧
        cron_floor_minute first ≤ runner.cursor_minute ∧ 60 ≤ runner.cursor_minute := by
  have hc := hs.cursor
  unfold Runner.latest at hc
  obtain ⟨h₀, h₁, -⟩ := latest_nonneg runner.nows 0 le_rfl
  cases hn : runner.nows with
  | nil =>
    left
    rw [hn] at hc
    exact ⟨rfl, hc⟩
  | cons first rest =>
    right
    have hf := hs.nows_ge first (by rw [hn]; simp)
    have hle := h₁ first (by rw [hn]; simp)
    rw [floor_minute_eq h₀] at hc
    refine ⟨first, rfl, hf, ?_, ?_⟩
    · rw [floor_minute_eq (by omega)]
      omega
    · omega

def Runner.addCall (runner : Runner) (cursor now : ℤ) (c : RunnerCall) : Runner :=
  ⟨runner.expr, cursor, runner.calls ++ [c], runner.nows ++ [now], runner.log⟩

theorem latest_addCall (cursor now : ℤ) (c : RunnerCall) :
    (runner.addCall cursor now c).latest = max runner.latest now := by
  simp [Runner.latest, Runner.addCall]

/-- A call is added with its window: what has to hold of the window for the runner to stay
sound. -/
theorem Runner.Sound.add_call (hs : runner.Sound zone expr) {now cursor : ℤ} (hnow : 60 ≤ now)
    {c : RunnerCall} (hcursor : cursor = cron_floor_minute (max runner.latest now))
    (hc : c.Sound zone expr) (hfresh : c.check < c.start_minute) (hfired : c.fired = 0)
    (hapart : ∀ m, c.start_minute ≤ m → m ≤ c.current_minute →
      runner.nows = [] ∨ runner.cursor_minute < m)
    (hcover : ∀ m, m % 60 = 0 →
      ((∃ first, runner.nows.head? = some first ∧ cron_floor_minute first ≤ m ∧
        m ≤ runner.cursor_minute) ∨ (c.start_minute ≤ m ∧ m ≤ c.current_minute) ↔
      ∃ first, (runner.nows ++ [now]).head? = some first ∧ cron_floor_minute first ≤ m ∧
        m ≤ cursor)) : (runner.addCall cursor now c).Sound zone expr := by
  have hget : ∀ (i : ℕ) d, (runner.addCall cursor now c).calls[i]? = some d ↔
      runner.calls[i]? = some d ∨ (i = runner.calls.length ∧ d = c) := by
    intro i d
    simp only [Runner.addCall]
    rw [List.getElem?_append]
    split_ifs with hlt
    · constructor
      · exact Or.inl
      · rintro (h | ⟨h, -⟩)
        · exact h
        · omega
    · rw [List.getElem?_eq_none (by omega : runner.calls.length ≤ i)]
      by_cases hi : i = runner.calls.length
      · subst hi
        simp [eq_comm]
      · rw [List.getElem?_eq_none (by simp; omega)]
        simp [hi]
  have hholds : ∀ i m, (runner.addCall cursor now c).Holds i m ↔ runner.Holds i m ∨
      (i = runner.calls.length ∧ c.start_minute ≤ m ∧ m ≤ c.current_minute) := by
    intro i m
    unfold Runner.Holds
    simp only [hget]
    constructor
    · rintro ⟨d, h | ⟨hi, rfl⟩, hm⟩
      · exact Or.inl ⟨d, h, hm⟩
      · exact Or.inr ⟨hi, hm⟩
    · rintro (⟨d, h, hm⟩ | ⟨hi, hm⟩)
      · exact ⟨d, Or.inl h, hm⟩
      · exact ⟨c, Or.inr ⟨hi, rfl⟩, hm⟩
  have hold : ∀ i m, m % 60 = 0 → runner.Holds i m →
      ¬ (c.start_minute ≤ m ∧ m ≤ c.current_minute) := by
    rintro i m hm hi ⟨h₁, h₂⟩
    obtain ⟨first, hf, -, hle⟩ := (hs.covered m hm).mp ⟨i, hi⟩
    rcases hapart m h₁ h₂ with h | h
    · rw [h] at hf
      cases hf
    · omega
  have hlog : ∀ i m, (i, m) ∈ runner.log → i < runner.calls.length := by
    intro i m h
    obtain ⟨d, hd, -⟩ := (hs.log_mem i m).mp h
    exact (List.getElem?_eq_some_iff.mp hd).1
  refine ⟨hs.expr_eq, ?_, ?_, ?_, ?_, ?_, ?_, hs.log_nodup, ?_, ?_⟩
  · rw [latest_addCall]
    exact hcursor
  · intro x hx
    rcases List.mem_append.mp hx with hx | hx
    · exact hs.nows_ge x hx
    · rw [List.mem_singleton.mp hx]
      exact hnow
  · simp [Runner.addCall, hs.length]
  · intro i d hd
    rcases (hget i d).mp hd with hd | ⟨-, rfl⟩
    · exact hs.call i d hd
    · exact hc
  · intro i j m hm hi hj
    rcases (hholds i m).mp hi with hi' | ⟨hi₁, hi'⟩ <;>
      rcases (hholds j m).mp hj with hj' | ⟨hj₁, hj'⟩
    · exact hs.disjoint i j m hm hi' hj'
    · exact absurd hj' (hold i m hm hi')
    · exact absurd hi' (hold j m hm hj')
    · omega
  · intro m hm
    refine Iff.trans ?_ (hcover m hm)
    rw [← hs.covered m hm]
    simp only [hholds]
    constructor
    · rintro ⟨i, h | ⟨-, h⟩⟩
      · exact Or.inl ⟨i, h⟩
      · exact Or.inr h
    · rintro (⟨i, h⟩ | h)
      · exact ⟨i, Or.inl h⟩
      · exact ⟨_, Or.inr ⟨rfl, h⟩⟩
  · intro i m
    refine (hs.log_mem i m).trans ?_
    simp only [hget]
    constructor
    · rintro ⟨d, hd, hm⟩
      exact ⟨d, Or.inl hd, hm⟩
    · rintro ⟨d, hd | ⟨-, rfl⟩, hf, hm⟩
      · exact ⟨d, hd, hf, hm⟩
      · omega
  · intro i d hd
    rcases (hget i d).mp hd with hd | ⟨rfl, rfl⟩
    · exact hs.fired i d hd
    · rw [hfired]
      symm
      rw [List.length_eq_zero_iff]
      apply List.filter_eq_nil_iff.mpr
      rintro ⟨j, m⟩ h
      have := hlog j m h
      simp
      omega

theorem Runner.Sound.advance (hs : runner.Sound zone expr) {now : ℤ} (hnow : 60 ≤ now) :
    (runner_advance_locked runner now).Sound zone expr := by
  have hcursor := hs.cursor
  have h₀ : 0 ≤ runner.latest := (latest_nonneg runner.nows 0 le_rfl).1
  rw [floor_minute_eq h₀] at hcursor
  have hfloor := floor_minute_eq (show 0 ≤ now by omega)
  have hmax := floor_minute_eq (show 0 ≤ max runner.latest now by omega)
  unfold runner_advance_locked
  simp only
  split_ifs with hback hzero hzero
  · omega
  · -- the clock went back: the window is empty
    apply @Runner.Sound.add_call _ _ _ hs now runner.cursor_minute hnow
    · rw [hmax]
      omega
    · refine ⟨by simp only; omega, by simp only; omega, by simp, by simp, ?_⟩
      intro n hn
      cases hn
      refine ⟨rfl, ?_⟩
      intro m hm _
      simp only at hm ⊢
      omega
    · simp
    · rfl
    · intro m h₁ h₂
      simp only at h₁ h₂
      omega
    · intro m _
      simp only
      rcases hs.cursor_cases with ⟨h, h'⟩ | ⟨first, hf, -, -, -⟩
      · omega
      · have : (runner.nows ++ [now]).head? = some first := by
          rw [List.head?_append, hf]
          rfl
        rw [hf, this]
        constructor
        · rintro (h | h)
          · exact h
          · omega
        · exact Or.inl
  · -- the first call
    rcases hs.cursor_cases with ⟨hnil, -⟩ | ⟨first, -, -, -, h⟩
    · apply hs.add_call hnow
      · rw [hmax]
        omega
      · refine ⟨by simp only; omega, by simp only; omega, by simp, by simp, ?_⟩
        intro n hn
        cases hn
      · simp
      · rfl
      · exact fun m _ _ => Or.inl hnil
      · intro m _
        rw [hnil]
        simp
    · omega
  · -- the minutes after the cursor
    rcases hs.cursor_cases with ⟨-, h⟩ | ⟨first, hf, hf₁, hf₂, hge⟩
    · exact absurd h hzero
    · apply hs.add_call hnow
      · rw [hmax]
        omega
      · refine ⟨by simp only; omega, by simp only; omega, by simp, by simp, ?_⟩
        intro n hn
        cases hn
      · simp
      · rfl
      · intro m h₁ h₂
        simp only at h₁
        right
        omega
      · intro m hm
        simp only
        have : (runner.nows ++ [now]).head? = some first := by
          rw [List.head?_append, hf]
          rfl
        rw [hf, this]
        simp only [Option.some.injEq, exists_eq_left']
        omega

end Locked

section Dispatch
variable {zone : Zone} {expr : SaltsCronExpr} {runner : Runner}

variable {i : ℕ} {c : RunnerCall}

theorem getElem?_set_call (hc : runner.calls[i]? = some c) (c' : RunnerCall) (j : ℕ) :
    (runner.calls.set i c')[j]? = if i = j then some c' else runner.calls[j]? := by
  have hlt := (List.getElem?_eq_some_iff.mp hc).1
  rw [List.getElem?_set]
  simp [hlt]

/-- A call moves on inside its window, with or without a callback for the minute that it
reaches. -/
theorem Runner.Sound.set_call (hs : runner.Sound zone expr) {c' : RunnerCall} {log : List (ℕ × ℤ)}
    (hc : runner.calls[i]? = some c) (hstart : c'.start_minute = c.start_minute)
    (hcur : c'.current_minute = c.current_minute) (hsound : c'.Sound zone expr) (hnodup : log.Nodup)
    (hother : ∀ j m, j ≠ i → ((j, m) ∈ log ↔ (j, m) ∈ runner.log))
    (hself : ∀ m, (i, m) ∈ log ↔ Fires zone expr m ∧ c.start_minute ≤ m ∧ m ≤ c'.check)
    (hcount : ∀ j, j ≠ i → (log.filter fun entry => entry.1 = j).length = (runner.deliveredBy j).length)
    (hfired : c'.fired = (log.filter fun entry => entry.1 = i).length) :
    (⟨runner.expr, runner.cursor_minute, runner.calls.set i c', runner.nows, log⟩ : Runner).Sound
      zone expr := by
  have hget := getElem?_set_call hc c'
  have hholds : ∀ j m, (⟨runner.expr, runner.cursor_minute, runner.calls.set i c', runner.nows,
      log⟩ : Runner).Holds j m ↔ runner.Holds j m := by
    intro j m
    unfold Runner.Holds
    simp only [hget]
    by_cases hj : i = j
    · subst hj
      simp [hc, hstart, hcur]
    · simp [hj]
  refine ⟨hs.expr_eq, hs.cursor, hs.nows_ge, ?_, ?_, ?_, ?_, hnodup, ?_, ?_⟩
  · rw [List.length_set]
    exact hs.length
  · intro j d hd
    rw [hget] at hd
    split_ifs at hd with hj
    · cases hd
      exact hsound
    · exact hs.call j d hd
  · intro j k m hm hj hk
    exact hs.disjoint j k m hm ((hholds j m).mp hj) ((hholds k m).mp hk)
  · intro m hm
    simp only [hholds]
    exact hs.covered m hm
  · intro j m
    simp only [hget]
    by_cases hj : i = j
    · subst hj
      rw [hself]
      simp [hstart]
    · rw [hother j m (Ne.symm hj), hs.log_mem]
      simp [hj]
  · intro j d hd
    rw [hget] at hd
    split_ifs at hd with hj
    · cases hd
      subst hj
      exact hfired
    · rw [hs.fired j d hd]
      exact (hcount j (Ne.symm hj)).symm

theorem Runner.Sound.finish (hs : runner.Sound zone expr) (hc : runner.calls[i]? = some c)
    (hend : ∀ m, c.check < m → Fires zone expr m → c.current_minute < m) :
    ({ runner with calls := runner.calls.set i { c with result := some c.fired } } : Runner).Sound
      zone expr := by
  have hsc := hs.call i c hc
  refine hs.set_call hc rfl rfl ⟨hsc.nonneg, hsc.whole, hsc.start, hsc.check, ?_⟩ hs.log_nodup
    (fun _ _ _ => Iff.rfl) ?_ (fun _ _ => rfl) (hs.fired i c hc)
  · intro n hn
    cases hn
    exact ⟨rfl, hend⟩
  · intro m
    rw [hs.log_mem]
    simp [hc]

theorem Runner.Sound.deliver (hs : runner.Sound zone expr) (hc : runner.calls[i]? = some c)
    (hres : c.result = none) {t : ℤ} (hlt : c.check < t) (hle : t ≤ c.current_minute)
    (hfire : Fires zone expr t) (hleast : ∀ m, c.check < m → Fires zone expr m → t ≤ m) :
    (⟨runner.expr, runner.cursor_minute,
      runner.calls.set i { c with check := t, fired := c.fired + 1 }, runner.nows,
      runner.log ++ [(i, t)]⟩ : Runner).Sound zone expr := by
  have hsc := hs.call i c hc
  have hnew : (i, t) ∉ runner.log := by
    intro h
    obtain ⟨d, hd, -, -, hle'⟩ := (hs.log_mem i t).mp h
    rw [hc] at hd
    cases hd
    omega
  have hstart : c.start_minute ≤ t := by
    have := hsc.start
    have := hsc.whole
    have := hfire.1
    omega
  refine hs.set_call hc rfl rfl ⟨by simp only; have := hsc.nonneg; omega, hfire.1,
    by simp only; omega, Or.inr hle, ?_⟩ ?_ ?_ ?_ ?_ ?_
  · intro n hn
    simp only [hres] at hn
    cases hn
  · rw [List.nodup_append]
    refine ⟨hs.log_nodup, by simp, ?_⟩
    intro a ha b hb
    rw [List.mem_singleton.mp hb]
    rintro rfl
    exact hnew ha
  · intro j m hj
    simp [hj]
  · intro m
    simp only [List.mem_append, List.mem_singleton, Prod.mk.injEq, true_and, hs.log_mem, hc,
      Option.some.injEq, exists_eq_left']
    constructor
    · rintro (⟨h₁, h₂, h₃⟩ | rfl)
      · exact ⟨h₁, h₂, by omega⟩
      · exact ⟨hfire, hstart, le_rfl⟩
    · rintro ⟨h₁, h₂, h₃⟩
      by_cases hm : m ≤ c.check
      · exact Or.inl ⟨h₁, h₂, hm⟩
      · have := hleast m (by omega) h₁
        right
        omega
  · intro j hj
    simp [Runner.deliveredBy, Ne.symm hj]
  · have := hs.fired i c hc
    unfold Runner.deliveredBy at this
    simp [this]

/-- What a pass of the dispatch loop does: nothing is left to do, the call returns, or it
delivers the next minute of its window. -/
theorem dispatch_cases (hn : NextFire zone expr) (hs : runner.Sound zone expr) (i : ℕ) :
    (runner_dispatch zone runner i = runner ∧
      ∀ c, runner.calls[i]? = some c → c.result.isSome = true) ∨
    (∃ c, runner.calls[i]? = some c ∧ c.result = none ∧
      (∀ m, c.check < m → Fires zone expr m → c.current_minute < m) ∧
      runner_dispatch zone runner i =
        { runner with calls := runner.calls.set i { c with result := some c.fired } }) ∨
    ∃ c t, runner.calls[i]? = some c ∧ c.result = none ∧ c.check < t ∧ t ≤ c.current_minute ∧
      Fires zone expr t ∧ (∀ m, c.check < m → Fires zone expr m → t ≤ m) ∧
      runner_dispatch zone runner i = ⟨runner.expr, runner.cursor_minute,
        runner.calls.set i { c with check := t, fired := c.fired + 1 }, runner.nows,
        runner.log ++ [(i, t)]⟩ := by
  unfold runner_dispatch
  cases hc : runner.calls[i]? with
  | none => exact Or.inl ⟨rfl, by simp⟩
  | some c =>
    cases hr : c.result with
    | some n => exact Or.inl ⟨by simp [hr], by rintro d hd; cases hd; simp [hr]⟩
    | none =>
      have hfire := hn c.check (hs.call i c hc).nonneg
      right
      simp only [hr, Option.isSome_none, Bool.false_eq_true, if_false, hs.expr_eq]
      cases hx : salts_cron_next zone (some expr) c.check true with
      | error code =>
        rw [hx] at hfire
        left
        refine ⟨c, rfl, hr, ?_, rfl⟩
        intro m hm hf
        exact absurd hf (hfire m hm)
      | ok t =>
        rw [hx] at hfire
        obtain ⟨h₁, h₂, h₃⟩ := hfire
        by_cases hgt : t > c.current_minute
        · left
          refine ⟨c, rfl, hr, ?_, ?_⟩
          · intro m hm hf
            exact lt_of_lt_of_le hgt (h₃ m hm hf)
          · simp [hgt]
        · right
          refine ⟨c, t, rfl, hr, h₁, by omega, h₂, h₃, ?_⟩
          simp [hgt, hr]

theorem Runner.Sound.dispatch (hn : NextFire zone expr) (hs : runner.Sound zone expr) (i : ℕ) :
    (runner_dispatch zone runner i).Sound zone expr := by
  rcases dispatch_cases hn hs i with ⟨h, -⟩ | ⟨c, hc, -, hend, h⟩ |
    ⟨c, t, hc, hr, h₁, h₂, h₃, h₄, h⟩
  · rw [h]
    exact hs
  · rw [h]
    exact hs.finish hc hend
  · rw [h]
    exact hs.deliver hc hr h₁ h₂ h₃ h₄

theorem Runner.Sound.run (hn : NextFire zone expr) (steps : List RunnerStep) :
    ∀ runner : Runner, runner.Sound zone expr →
      (∀ now, RunnerStep.advance now ∈ steps → 60 ≤ now) →
      (runner.run zone steps).Sound zone expr := by
  induction steps with
  | nil =>
    intro runner hs _
    exact hs
  | cons step steps ih =>
    intro runner hs hnow
    apply ih
    · cases step with
      | advance now => exact hs.advance (hnow now (by simp))
      | dispatch i => exact hs.dispatch hn i
    · intro now h
      exact hnow now (by simp [h])

theorem returned_calls (hc : runner.calls[i]? = some c) (n : ℕ) :
    (∀ d, (runner.calls.set i { c with result := some n })[i]? = some d →
      d.result.isSome = true) ∧
    ∀ j, j ≠ i → (runner.calls.set i { c with result := some n })[j]? = runner.calls[j]? := by
  constructor
  · intro d hd
    rw [getElem?_set_call hc, if_pos rfl] at hd
    cases hd
    rfl
  · intro j hj
    rw [getElem?_set_call hc, if_neg (Ne.symm hj)]

theorem call_returns (hn : NextFire zone expr) (i fuel : ℕ) : ∀ runner : Runner,
    runner.Sound zone expr →
    (∀ c, runner.calls[i]? = some c → c.current_minute - c.check < fuel) →
    ∃ k, (∀ c, (runner.run zone (List.replicate k (.dispatch i))).calls[i]? = some c →
        c.result.isSome = true) ∧
      ∀ j, j ≠ i →
        (runner.run zone (List.replicate k (.dispatch i))).calls[j]? = runner.calls[j]? := by
  induction fuel with
  | zero =>
    intro runner hs hfuel
    rcases dispatch_cases hn hs i with ⟨-, hret⟩ | ⟨c, hc, -, -, h⟩ | ⟨c, t, hc, -, h₁, h₂, -, -, -⟩
    · exact ⟨0, hret, fun _ _ => rfl⟩
    · refine ⟨1, ?_⟩
      simp only [Runner.run, List.replicate, List.foldl, Runner.step, h]
      exact returned_calls hc c.fired
    · have := hfuel c hc
      omega
  | succ fuel ih =>
    intro runner hs hfuel
    rcases dispatch_cases hn hs i with ⟨-, hret⟩ | ⟨c, hc, -, -, h⟩ | ⟨c, t, hc, -, h₁, h₂, -, -, h⟩
    · exact ⟨0, hret, fun _ _ => rfl⟩
    · refine ⟨1, ?_⟩
      simp only [Runner.run, List.replicate, List.foldl, Runner.step, h]
      exact returned_calls hc c.fired
    · -- the call has moved on by a minute at least
      have hcloser : ∀ d, (runner_dispatch zone runner i).calls[i]? = some d →
          d.current_minute - d.check < fuel := by
        intro d hd
        rw [h, getElem?_set_call hc, if_pos rfl] at hd
        cases hd
        have := hfuel c hc
        simp only
        omega
      obtain ⟨k, hk₁, hk₂⟩ := ih (runner_dispatch zone runner i) (hs.dispatch hn i) hcloser
      refine ⟨k + 1, hk₁, ?_⟩
      intro j hj
      refine (hk₂ j hj).trans ?_
      rw [h, getElem?_set_call hc, if_neg (Ne.symm hj)]

theorem run_append (l₁ l₂ : List RunnerStep) :
    runner.run zone (l₁ ++ l₂) = (runner.run zone l₁).run zone l₂ :=
  List.foldl_append

theorem dispatches_nows (order : List ℕ) : ∀ runner : Runner,
    (runner.run zone (order.map RunnerStep.dispatch)).nows = runner.nows := by
  induction order with
  | nil =>
    intro runner
    rfl
  | cons i order ih =>
    intro runner
    refine (ih (runner_dispatch zone runner i)).trans ?_
    unfold runner_dispatch
    split
    · rfl
    · split_ifs
      · rfl
      · split
        · split_ifs <;> rfl
        · rfl

theorem calls_return (hn : NextFire zone expr) (hs : runner.Sound zone expr) :
    ∃ order : List ℕ, (runner.run zone (order.map RunnerStep.dispatch)).Quiet := by
  have hupto : ∀ n : ℕ, ∃ order : List ℕ, ∀ i < n, ∀ c,
      (runner.run zone (order.map RunnerStep.dispatch)).calls[i]? = some c →
        c.result.isSome = true := by
    intro n
    induction n with
    | zero => exact ⟨[], fun i hi => by omega⟩
    | succ n ih =>
      obtain ⟨order, horder⟩ := ih
      have hs' : (runner.run zone (order.map RunnerStep.dispatch)).Sound zone expr :=
        Runner.Sound.run hn _ runner hs (by simp)
      obtain ⟨fuel, hfuel⟩ : ∃ fuel : ℕ, ∀ c,
          (runner.run zone (order.map RunnerStep.dispatch)).calls[n]? = some c →
            c.current_minute - c.check < fuel := by
        cases hc : (runner.run zone (order.map RunnerStep.dispatch)).calls[n]? with
        | none => exact ⟨0, by simp⟩
        | some c =>
          refine ⟨(c.current_minute - c.check).toNat + 1, ?_⟩
          rintro d ⟨⟩
          omega
      obtain ⟨k, hk₁, hk₂⟩ := call_returns hn n fuel _ hs' hfuel
      refine ⟨order ++ List.replicate k n, ?_⟩
      intro i hi c hc
      rw [List.map_append, List.map_replicate, run_append] at hc
      by_cases hin : i = n
      · subst hin
        exact hk₁ c hc
      · rw [hk₂ i hin] at hc
        exact horder i (by omega) c hc
  have hlen : ∀ order : List ℕ,
      (runner.run zone (order.map RunnerStep.dispatch)).calls.length = runner.nows.length := by
    intro order
    have hs' : (runner.run zone (order.map RunnerStep.dispatch)).Sound zone expr :=
      Runner.Sound.run hn _ runner hs (by simp)
    rw [← hs'.length]
    exact congrArg List.length (dispatches_nows order runner)
  obtain ⟨order, horder⟩ := hupto runner.nows.length
  refine ⟨order, ?_⟩
  intro c hc
  obtain ⟨i, hi, rfl⟩ := List.getElem_of_mem hc
  exact horder i (by rw [← hlen order]; exact hi) _ (List.getElem?_eq_getElem hi)

end Dispatch

section Fires
variable {expr : SaltsCronExpr} (offset : ℤ)

theorem nextFire_fixedOffset (hw : expr.WellFormed) : NextFire (fixedOffset offset) expr := by
  intro check hcheck
  have hmem : ∀ m, m ∈ fireTimes (fixedOffset offset) expr check ↔
      check < m ∧ Fires (fixedOffset offset) expr m := fun m => Iff.rfl
  by_cases hne : (fireTimes (fixedOffset offset) expr check).Nonempty
  · obtain ⟨t, ⟨ht, hleast⟩, hnext⟩ := next_finds offset hw hcheck hne
    rw [hnext]
    exact ⟨ht.1, ht.2, fun m h₁ h₂ => hleast ⟨h₁, h₂⟩⟩
  · rw [Set.not_nonempty_iff_eq_empty] at hne
    rw [next_none offset hw hcheck hne]
    intro m h₁ h₂
    have := (hmem m).mpr ⟨h₁, h₂⟩
    rw [hne] at this
    exact this

theorem create_sound {expression : Option (List Char)} {callback : Bool} {runner : Runner}
    (h : salts_cron_runner_create expression callback = some runner) :
    ∃ expr, expr.WellFormed ∧ runner = { expr := expr } ∧
      runner.Sound (fixedOffset offset) expr := by
  unfold salts_cron_runner_create at h
  split at h
  · cases h
  · split at h
    · rename_i expr hparse
      cases h
      refine ⟨expr, parse_wellFormed hparse, rfl, ?_⟩
      constructor <;> simp [Runner.latest, cron_floor_minute, Runner.Holds]
    · cases h

end Fires

/-- Whatever calls of `salts_cron_runner_advance` are made and however their locked sections
and dispatch passes are interleaved: every call can be run to its end, and once all have
returned, the minutes delivered are the matching ones from the first time to the latest, each
delivered once; a call returns the number of minutes that it delivered. -/
theorem runner_fires_each_minute_once (offset : ℤ) (expression : List Char) (runner : Runner)
    (hcreate : salts_cron_runner_create (some expression) true = some runner)
    (steps : List RunnerStep) (hnow : ∀ now, RunnerStep.advance now ∈ steps → 60 ≤ now) :
    let zone := fixedOffset offset
    let reached := runner.run zone steps
    (∃ order : List ℕ, (reached.run zone (order.map RunnerStep.dispatch)).Quiet) ∧
    (reached.Quiet → reached.delivered.Nodup ∧
      ∀ m, m ∈ reached.delivered ↔ Fires zone runner.expr m ∧
        ∃ first, reached.nows.head? = some first ∧ cron_floor_minute first ≤ m ∧
          m ≤ cron_floor_minute reached.latest) ∧
    ∀ (i : ℕ) call n, reached.calls[i]? = some call → call.result = some n →
      n = (reached.deliveredBy i).length := by
  obtain ⟨expr, hw, hexpr, hs₀⟩ := create_sound offset hcreate
  have hn := nextFire_fixedOffset offset hw
  have hs := Runner.Sound.run hn steps runner hs₀ hnow
  have hexpr' : runner.expr = expr := by rw [hexpr]
  simp only [hexpr']
  refine ⟨calls_return hn hs, ?_, ?_⟩
  · intro hquiet
    have hwindow : ∀ i m, (i, m) ∈ (runner.run (fixedOffset offset) steps).log →
        m % 60 = 0 ∧ (runner.run (fixedOffset offset) steps).Holds i m := by
      intro i m h
      obtain ⟨c, hc, hf, h₁, h₂⟩ := (hs.log_mem i m).mp h
      refine ⟨hf.1, c, hc, h₁, ?_⟩
      have := (hs.call i c hc).check
      omega
    refine ⟨?_, ?_⟩
    · apply List.Nodup.map_on _ hs.log_nodup
      rintro ⟨i, m⟩ hi ⟨j, m'⟩ hj hm
      simp only at hm
      subst hm
      have h := hs.disjoint i j m (hwindow i m hi).1 (hwindow i m hi).2 (hwindow j m hj).2
      rw [h]
    · intro m
      rw [← hs.cursor]
      constructor
      · intro hm
        obtain ⟨⟨i, m'⟩, h, rfl⟩ := List.mem_map.mp hm
        obtain ⟨c, -, hf, -⟩ := (hs.log_mem i m').mp h
        exact ⟨hf, (hs.covered m' hf.1).mp ⟨i, (hwindow i m' h).2⟩⟩
      · rintro ⟨hf, hfirst⟩
        obtain ⟨i, c, hc, h₁, h₂⟩ := (hs.covered m hf.1).mpr hfirst
        have hret := hquiet c (List.mem_of_getElem? hc)
        obtain ⟨n, hn⟩ := Option.isSome_iff_exists.mp hret
        have hle : m ≤ c.check := by
          by_contra hgt
          have := ((hs.call i c hc).complete n hn).2 m (by omega) hf
          omega
        exact List.mem_map.mpr ⟨(i, m), (hs.log_mem i m).mpr ⟨c, hc, hf, h₁, hle⟩, rfl⟩
  · intro i call n hc hr
    rw [((hs.call i call hc).complete n hr).1]
    exact hs.fired i call hc

/-- Every minute, called for at 60, at 300 with the first call still under way, and
back at 120. -/
theorem runner_fires_each_minute_once_interleaved :
    ∃ runner, salts_cron_runner_create (some "* * * * *".toList) true = some runner ∧
      (runner.run (fixedOffset 0) [.advance 60, .advance 300, .dispatch 1, .dispatch 0,
        .advance 120, .dispatch 1, .dispatch 0, .dispatch 1, .dispatch 1, .dispatch 1]).delivered =
        [120, 60, 180, 240, 300] ∧
      (runner.run (fixedOffset 0) [.advance 60, .advance 300, .dispatch 1, .dispatch 0,
        .advance 120, .dispatch 1, .dispatch 0, .dispatch 1, .dispatch 1,
        .dispatch 1]).delivered.Nodup := by
  have hcreate : salts_cron_runner_create (some "* * * * *".toList) true =
      some { expr := ⟨0xFFFFFFFFFFFFFFF, 0xFFFFFF, 0xFFFFFFFE, 0x1FFE, 0x7F, true, true⟩ } := by
    decide +kernel
  refine ⟨_, hcreate, by decide +kernel, ?_⟩
  have h := runner_fires_each_minute_once 0 "* * * * *".toList _ hcreate
    [.advance 60, .advance 300, .dispatch 1, .dispatch 0, .advance 120, .dispatch 1, .dispatch 0,
      .dispatch 1, .dispatch 1, .dispatch 1] (by simp)
  exact (h.2.1 (by decide +kernel)).1

end SaltsUtils.Cron
