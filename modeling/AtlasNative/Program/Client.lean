import AtlasNative.Program.Runs

/-!
# Clients of one server

Clients ask a server one request after another, and go on with what it answers. The server takes one
request at a time; between two requests of a client it may take any number of requests of others.

A client is reasoned about alone: `wp` follows its text and lets the others, at each of its requests,
do what it relies on. The clients' guarantees are then put together once, for all runs of a pool of
them.
-/

namespace Program

open List Option

variable {Req : Type} {Rep : Req → Type} {α β ε : Type}

/-- What a client asks next, and how it goes on with the answer. -/
inductive Client (Rep : Req → Type) (α : Type) where
  | done (a : α)
  | ask (r : Req) (next : Rep r → Client Rep α)

namespace Client

protected def bind : Client Rep α → (α → Client Rep β) → Client Rep β
  | done a, f => f a
  | ask r next, f => ask r fun x => (next x).bind f

instance : Monad (Client Rep) where
  pure := done
  bind := Client.bind

def request (r : Req) : Client Rep (Rep r) := ask r done

/-- Has it come to its end, and with what? -/
def result : Client Rep α → Option α
  | done a => some a
  | ask .. => none

/-- The request it is about to make. -/
def asks : Client Rep α → Option Req
  | done _ => none
  | ask r _ => some r

/-- All its requests, with nobody else at work. -/
def run {σ : Type} (serve : (r : Req) → σ → Rep r × σ) : Client Rep α → σ → α × σ
  | done a, s => (a, s)
  | ask r next, s => (next (serve r s).1).run serve (serve r s).2

theorem run_bind {σ : Type} (serve : (r : Req) → σ → Rep r × σ) (x : Client Rep α) (f : α → Client Rep β) (s : σ) :
    (x >>= f).run serve s = (f (x.run serve s).1).run serve (x.run serve s).2 := by
  induction x generalizing s with
  | done a => rfl
  | ask r next ih => exact ih _ _

end Client

/-! ### One client among others -/

/-- A server (`ι` is what it adds to a request on its own, a time or a fault), and how its clients
`Who` get along. -/
structure Rules (Rep : Req → Type) (Who ι σ : Type) where
  answer : Who → ι → (r : Req) → σ → Rep r × σ
  inv : σ → Prop
  /-- What a client lets the others do to the state. -/
  rely : Who → σ → σ → Prop
  /-- What it does to the state itself, one request at a time. -/
  guar : Who → Req → σ → σ → Prop
  /-- Where it may make a request. -/
  may : Who → ι → Req → σ → Prop
  /-- What holds before it makes the first. -/
  idle : Who → σ → Prop := fun _ _ => True

variable {Who ι σ : Type} {R : Rules Rep Who ι σ} {who : Who} {s s' : σ}

variable {r : Req}

namespace Rules

/-- From `s` on, with the others at work, the client keeps its guarantees and ends with `Q`. -/
def wp (R : Rules Rep Who ι σ) (who : Who) : Client Rep α → (α → σ → Prop) → σ → Prop
  | .done a, Q, s => Q a s
  | .ask r next, Q, s => ∀ x s', R.rely who s s' → R.inv s' → R.may who x r s' →
      R.inv (R.answer who x r s').2 ∧ R.guar who r s' (R.answer who x r s').2 ∧
        R.wp who (next (R.answer who x r s').1) Q (R.answer who x r s').2

variable {x : Client Rep α} {Q Q' : α → σ → Prop}

theorem wp_mono (h : ∀ a s, Q a s → Q' a s) (hx : R.wp who x Q s) : R.wp who x Q' s := by
  induction x generalizing s with
  | done a => exact h a s hx
  | ask r next ih =>
    intro e s' hrely hinv hmay
    obtain ⟨hinv', hguar, hnext⟩ := hx e s' hrely hinv hmay
    exact ⟨hinv', hguar, ih _ hnext⟩

theorem wp_bind {f : α → Client Rep β} {Q : β → σ → Prop}
    (h : R.wp who x (fun a => R.wp who (f a) Q) s) : R.wp who (x >>= f) Q s := by
  induction x generalizing s with
  | done a => exact h
  | ask r next ih =>
    intro e s' hrely hinv hmay
    obtain ⟨hinv', hguar, hnext⟩ := h e s' hrely hinv hmay
    exact ⟨hinv', hguar, ih _ hnext⟩

theorem wp_bindE {x : ExceptT ε (Client Rep) α} {f : α → ExceptT ε (Client Rep) β}
    {Q : Except ε β → σ → Prop} (h : R.wp who x.run (fun
      | .ok a => R.wp who (f a).run Q
      | .error e => Q (.error e)) s) : R.wp who (x >>= f).run Q s := by
  refine wp_bind (wp_mono (fun a s ha => ?_) h)
  cases a with
  | ok | error => exact ha

end Rules

/-! ### A pool of clients -/

variable {Call Out : Type}

structure Thread (Rep : Req → Type) (Call Out : Type) where
  call : Call
  rest : Client Rep Out

structure Pool (Rep : Req → Type) (Call Out σ : Type) where
  state : σ
  threads : List (Thread Rep Call Out) := []

inductive Turn (Call ι : Type) where
  | start (c : Call)
  /-- The next request of a client. -/
  | step (i : Nat) (x : ι)

namespace Pool

def step (answer : Nat × Call → ι → (r : Req) → σ → Rep r × σ) (program : Nat → Call → Client Rep Out)
    (p : Pool Rep Call Out σ) : Turn Call ι → Pool Rep Call Out σ
  | .start c => { p with threads := p.threads ++ [⟨c, program p.threads.length c⟩] }
  | .step i x =>
    match p.threads[i]? with
    | some ⟨c, .ask r next⟩ =>
      let (a, s) := answer (i, c) x r p.state
      { state := s, threads := p.threads.set i ⟨c, next a⟩ }
    | _ => p

/-- What client `i` asks when it has its turn. -/
def asking (p : Pool Rep Call Out σ) (i : Nat) : Option (Call × Req) :=
  p.threads[i]?.bind fun t => t.rest.asks.map (t.call, ·)

/-- A call that has come to its end. -/
def returned (p : Pool Rep Call Out σ) (i : Nat) (c : Call) (out : Out) : Prop :=
  p.threads[i]? = some ⟨c, .done out⟩

variable {i : Nat} {c : Call}

theorem returned_of_result {p : Pool Rep Call Out σ} {out : Out}
    (h : p.threads[i]?.map (fun t => (t.call, t.rest.result)) = some (c, some out)) :
    p.returned i c out := by
  obtain ⟨⟨c', rest⟩, ht, hresult⟩ := map_eq_some_iff.mp h
  obtain ⟨rfl, hrest⟩ := Prod.mk.inj hresult
  cases rest with
  | done a => rw [returned, ht, some.inj hrest]
  | ask r next => cases hrest

variable {R : Rules Rep (Nat × Call) ι σ} {program : Nat → Call → Client Rep Out}
  {Q : Nat × Call → Out → σ → Prop} {P : Pool Rep Call Out σ → Turn Call ι → Prop}
  {p : Pool Rep Call Out σ} {turns : List (Turn Call ι)}

/-- Every client under way goes on as its rules say. -/
structure Good (R : Rules Rep (Nat × Call) ι σ) (Q : Nat × Call → Out → σ → Prop)
    (p : Pool Rep Call Out σ) : Prop where
  inv : R.inv p.state
  going : ∀ i c r next, p.threads[i]? = some ⟨c, .ask r next⟩ →
    R.wp (i, c) (.ask r next) (Q (i, c)) p.state
  idle : ∀ i c, p.threads.length ≤ i → R.idle (i, c) p.state

/-- The condition `P` on runs lets clients that follow `R` run together. -/
structure Fits (R : Rules Rep (Nat × Call) ι σ) (program : Nat → Call → Client Rep Out)
    (Q : Nat × Call → Out → σ → Prop) (P : Pool Rep Call Out σ → Turn Call ι → Prop) : Prop where
  trans : ∀ {who s t u}, R.rely who s t → R.rely who t u → R.rely who s u
  start : ∀ p c, R.inv p.state → R.idle (p.threads.length, c) p.state → P p (.start c) →
    R.wp (p.threads.length, c) (program p.threads.length c) (Q (p.threads.length, c)) p.state
  may : ∀ p i c r next x, p.threads[i]? = some ⟨c, .ask r next⟩ → P p (.step i x) →
    R.may (i, c) x r p.state
  /-- What one client does is what the others let it do. -/
  others : ∀ p i c r next x j c' r' next', R.inv p.state → P p (.step i x) →
    p.threads[i]? = some ⟨c, .ask r next⟩ → p.threads[j]? = some ⟨c', .ask r' next'⟩ → i ≠ j →
    R.guar (i, c) r p.state (R.answer (i, c) x r p.state).2 →
    R.rely (j, c') p.state (R.answer (i, c) x r p.state).2
  idle : ∀ i c r j c' s s', R.inv s → i ≠ j → R.guar (i, c) r s s' → R.idle (j, c') s →
    R.idle (j, c') s'

theorem Fits.weaken (h : Fits R program Q P) {Q' : Nat × Call → Out → σ → Prop}
    (hQ : ∀ who out s, Q who out s → Q' who out s) : Fits R program Q' P where
  trans := h.trans
  start p c hinv hidle hP := Rules.wp_mono (hQ _) (h.start p c hinv hidle hP)
  may := h.may
  others := h.others
  idle := h.idle

variable {next : Rep r → Client Rep Out}

theorem asking_eq (h : p.threads[i]? = some ⟨c, .ask r next⟩) : p.asking i = some (c, r) := by
  rw [asking, h]
  rfl

theorem thread_of_asking {q : Call × Req} (h : q ∈ p.asking i) : ∃ next, p.threads[i]? = some ⟨q.1, .ask q.2 next⟩ := by
  obtain ⟨⟨c, rest⟩, ht, hq⟩ := bind_eq_some_iff.mp h
  obtain ⟨r, hr, rfl⟩ := map_eq_some_iff.mp hq
  cases rest with
  | done a => cases hr
  | ask r' next =>
    obtain rfl := some.inj hr
    exact ⟨next, ht⟩

theorem step_ask {answer : Nat × Call → ι → (r : Req) → σ → Rep r × σ}
    (h : p.threads[i]? = some ⟨c, .ask r next⟩) (x : ι) :
    p.step answer program (.step i x) =
      { state := (answer (i, c) x r p.state).2
        threads := p.threads.set i ⟨c, next (answer (i, c) x r p.state).1⟩ } := by
  rw [step, h]

/-- A turn of a client that asks nothing changes nothing. -/
theorem ask_or_idle (answer : Nat × Call → ι → (r : Req) → σ → Rep r × σ)
    (program : Nat → Call → Client Rep Out) (p : Pool Rep Call Out σ) (i : Nat) (x : ι) :
    (∃ c r next, p.threads[i]? = some ⟨c, .ask r next⟩) ∨ p.step answer program (.step i x) = p := by
  rw [step]
  split
  · exact .inl ⟨_, _, _, ‹_›⟩
  · exact .inr rfl

/-- A call that has come to its end stays there. -/
theorem returned.later {answer : Nat × Call → ι → (r : Req) → σ → Rep r × σ} {out : Out}
    (h : p.returned i c out) (turns : List (Turn Call ι)) :
    (turns.foldl (Pool.step answer program) p).returned i c out := by
  induction turns generalizing p with
  | nil => exact h
  | cons e turns ih =>
    refine ih ?_
    cases e with
    | start c' => exact getElem?_snoc_iff.mpr (.inl h)
    | step k x =>
      rcases ask_or_idle answer program p k x with ⟨c', r, next, hk⟩ | hsame
      · rw [step_ask hk]
        refine (getElem?_set_iff (lt_of_getElem? hk)).mpr (.inr ⟨?_, h⟩)
        rintro rfl
        rw [returned, hk] at h
        cases h
      · rw [hsame]
        exact h

section

variable (h : Good R Q p) (hfit : Fits R program Q P)
include h hfit

/-- What one request does: the guarantee of the client that makes it, and its end if it ends. -/
theorem Good.asked {x : ι} (hi : p.threads[i]? = some ⟨c, .ask r next⟩)
    (hrefl : R.rely (i, c) p.state p.state) (hP : P p (.step i x)) :
    R.inv (R.answer (i, c) x r p.state).2 ∧ R.guar (i, c) r p.state (R.answer (i, c) x r p.state).2 ∧
      R.wp (i, c) (next (R.answer (i, c) x r p.state).1) (Q (i, c)) (R.answer (i, c) x r p.state).2 :=
  h.going i c r next hi x p.state hrefl h.inv (hfit.may p i c r next x hi hP)

theorem Good.step (hrefl : ∀ who s, R.rely who s s) (e : Turn Call ι) (hP : P p e) :
    Good R Q (p.step R.answer program e) := by
  cases e with
  | start c =>
    refine ⟨h.inv, fun i c' r next hi => ?_, fun i c' hi => h.idle i c' (by
      simp only [Pool.step, length_append, length_singleton] at hi
      omega)⟩
    rcases getElem?_snoc_iff.mp hi with hi | ⟨rfl, heq⟩
    · exact h.going i c' r next hi
    · injection heq with hc hrest
      subst hc
      rw [hrest]
      exact hfit.start p c' h.inv (h.idle _ _ (Nat.le_refl _)) hP
  | step i x =>
    rcases ask_or_idle R.answer program p i x with ⟨c, r, next, hi⟩ | hsame
    · obtain ⟨hinv, hguar, hnext⟩ := h.asked hfit hi (hrefl _ _) hP
      have hlt : i < p.threads.length := lt_of_getElem? hi
      rw [step_ask hi]
      refine ⟨hinv, fun j c' r' next' hj => ?_, fun j c' hj => ?_⟩
      on_goal 2 =>
        rw [length_set] at hj
        exact hfit.idle i c r j c' _ _ h.inv (by omega) hguar (h.idle j c' hj)
      rcases (getElem?_set_iff hlt).mp hj with ⟨rfl, heq⟩ | ⟨hji, hj⟩
      · injection heq with hc hrest
        subst hc
        rw [hrest]
        exact hnext
      · have hrely := hfit.others p i c r next x j c' r' next' h.inv hP hi hj hji.symm hguar
        exact fun e _ hrely' => h.going j c' r' next' hj e _ (hfit.trans hrely hrely')
    · rw [hsame]
      exact h

omit h hfit in
theorem good_of_meets {init : σ} (hinit : R.inv init) (hidle : ∀ who, R.idle who init) (hfit : Fits R program Q P)
    (hrefl : ∀ who s, R.rely who s s)
    (h : Meets (Pool.step R.answer program) ⟨init, []⟩ P turns) :
    Good R Q (turns.foldl (Pool.step R.answer program) ⟨init, []⟩) :=
  h.invariant ⟨hinit, fun _ _ _ _ hi => by simp at hi, fun _ _ _ => hidle _⟩
    fun _ e hgood hP => hgood.step hfit hrefl e hP

/-- Which calls have come to an end after a turn: those that had, and the one whose turn it was, with
what its rules say. -/
theorem Good.returned (hrefl : ∀ who s, R.rely who s s) {e : Turn Call ι} (hP : P p e) {j : Nat}
    {out : Out} (hj : (p.step R.answer program e).returned j c out) :
    Q (j, c) out (p.step R.answer program e).state ∨ p.returned j c out ∧ ∀ x, e = .step j x →
      (p.step R.answer program e).state = p.state := by
  cases e with
  | start c' =>
    rcases getElem?_snoc_iff.mp hj with hj | ⟨rfl, heq⟩
    · exact .inr ⟨hj, fun _ _ => rfl⟩
    · injection heq with hc hrest
      subst hc
      have hstart := hfit.start p c h.inv (h.idle _ _ (Nat.le_refl _)) hP
      rw [← hrest] at hstart
      exact .inl hstart
  | step i x =>
    rcases ask_or_idle R.answer program p i x with ⟨c', r, next, hi⟩ | hsame
    · obtain ⟨-, -, hnext⟩ := h.asked hfit hi (hrefl _ _) hP
      rw [step_ask hi] at hj ⊢
      rcases (getElem?_set_iff (lt_of_getElem? hi)).mp hj with ⟨rfl, heq⟩ | ⟨hji, hj⟩
      · injection heq with hc hrest
        subst hc
        rw [← hrest] at hnext
        exact .inl hnext
      · exact .inr ⟨hj, fun _ heq => absurd (Turn.step.inj heq).1 hji.symm⟩
    · rw [hsame] at hj ⊢
      exact .inr ⟨hj, fun _ _ => rfl⟩

end

/-- What the calls that have come to an end ended with, where the others leave it alone. -/
theorem ended_of_meets {init : σ} (hinit : R.inv init) (hidle : ∀ who, R.idle who init)
    (hfit : Fits R program Q P) (hrefl : ∀ who s, R.rely who s s)
    (hkeep : ∀ p i c r next x j c' out, R.inv p.state → P p (.step i x) →
      p.threads[i]? = some ⟨c, .ask r next⟩ → p.returned j c' out → i ≠ j →
      R.guar (i, c) r p.state (R.answer (i, c) x r p.state).2 →
      Q (j, c') out p.state → Q (j, c') out (R.answer (i, c) x r p.state).2)
    (h : Meets (Pool.step R.answer program) ⟨init, []⟩ P turns) :
    ∀ i c out, (turns.foldl (Pool.step R.answer program) ⟨init, []⟩).returned i c out →
      Q (i, c) out (turns.foldl (Pool.step R.answer program) ⟨init, []⟩).state := by
  have hall : Good R Q (turns.foldl (Pool.step R.answer program) ⟨init, []⟩) ∧
      ∀ i c out, (turns.foldl (Pool.step R.answer program) ⟨init, []⟩).returned i c out →
        Q (i, c) out (turns.foldl (Pool.step R.answer program) ⟨init, []⟩).state := by
    refine h.invariant (I := fun p => Good R Q p ∧ ∀ i c out, p.returned i c out → Q (i, c) out p.state)
      ⟨⟨hinit, fun _ _ _ _ hi => by simp at hi, fun _ _ _ => hidle _⟩, fun _ _ _ hi => by simp [Pool.returned] at hi⟩ ?_
    rintro p e ⟨hgood, hends⟩ hP
    refine ⟨hgood.step hfit hrefl e hP, fun j c' out hj => ?_⟩
    rcases hgood.returned hfit hrefl hP hj with hnow | ⟨hbefore, hsame⟩
    · exact hnow
    have hold := hends j c' out hbefore
    cases e with
    | start c => exact hold
    | step i x =>
      rcases ask_or_idle R.answer program p i x with ⟨c, r, next, hi⟩ | hidle
      · by_cases hij : i = j
        · rw [hsame x (by rw [hij])]
          exact hold
        · obtain ⟨-, hguar, -⟩ := hgood.asked hfit hi (hrefl _ _) hP
          rw [step_ask hi]
          exact hkeep p i c r next x j c' out hgood.inv hP hi hbefore hij hguar hold
      · rw [hidle]
        exact hold
  exact hall.2

end Pool

end Program
