import AtlasNative.Gateway.Auth

/-!
# The deny-list of tokens

A revoked token goes on a list that the REST edge asks before it lets a token through. Every
revocation also prunes the list of what is older than 30 days, while tokens may be asked for that
live for 90, and the gRPC edge never asks.

A token whose life is over before its row can be pruned stays out of the REST edge for good.
-/

namespace AtlasNative.Gateway

open Jwt List

/-- `revoked_tokens`, with the times of the rows in milliseconds, and the clock. -/
structure DenyList where
  nowMs : Nat
  revoked : List (String × Nat)
deriving DecidableEq, Repr

def retentionSecs : Nat := 30 * 24 * 3600

/-- The longest life a token may be asked for. -/
def maxTtl : Nat := 90 * 24 * 3600

namespace DenyList

/-- `INSERT … ON CONFLICT DO NOTHING`: a second revocation leaves the time of the first. -/
def insert (s : DenyList) (jti : String) : DenyList :=
  if s.revoked.any (·.1 == jti) then s
  else { s with revoked := s.revoked ++ [(jti, s.nowMs)] }

/-- `DELETE … WHERE revoked_at < cutoff`. -/
def prune (s : DenyList) : DenyList :=
  { s with revoked := s.revoked.filter fun row => !decide (row.2 < s.nowMs - retentionSecs * 1000) }

def revoke (s : DenyList) (jti : String) : DenyList := (s.insert jti).prune

def isRevoked (s : DenyList) (jti : String) : Bool := jti ≠ "" && s.revoked.any (·.1 == jti)

/-- What a request meets while the database answers. -/
def surroundings (s : DenyList) (allow : String → Bool) : Surroundings where
  nowSecs := s.nowMs / 1000
  isRevoked jti := some (s.isRevoked jti)
  allow := allow

end DenyList

/-! ### Histories -/

inductive MintRoute where
  /-- `POST /auth/tokens` -/
  | issueToken
  /-- `POST /auth/login` -/
  | login
  | oidcLogin
deriving DecidableEq, Repr

structure Mint where
  route : MintRoute
  subject : String
  role : String
  tenantId : String
  ttlSecs : Option Nat
  short : String
deriving DecidableEq, Repr

/-- The life a route grants, in seconds. -/
def Mint.lifetime (m : Mint) : Nat :=
  match m.route with
  | .issueToken => max 60 (min maxTtl (m.ttlSecs.getD 3600))
  | .login => max 60 (min maxTtl (m.ttlSecs.getD 86400))
  | .oidcLogin => 86400

def Mint.token {T : Type} [Jwt T] (m : Mint) (cfg : Config T) (s : DenyList) :
    T × Nat × String :=
  mintToken cfg.jwtSecret m.subject m.role m.tenantId m.lifetime (s.nowMs / 1000) m.short

def Mint.jti (m : Mint) : String := "jti_" ++ m.short

inductive TokenEvent (T : Type) where
  | tick (ms : Nat)
  | mint (m : Mint)
  | revoke (jti : String)
  /-- The second statement of a revocation, on its own. -/
  | prune
  | request (edge : Edge) (bearer : Option T)
deriving DecidableEq

variable {T : Type}

def DenyList.step (s : DenyList) : TokenEvent T → DenyList
  | .tick ms => { s with nowMs := s.nowMs + ms }
  | .revoke jti => s.revoke jti
  | .prune => s.prune
  | .mint _ => s
  | .request _ _ => s

def DenyList.run (s : DenyList) (events : List (TokenEvent T)) : DenyList := events.foldl DenyList.step s

namespace DenyList

variable {s : DenyList} {jti : String} {since : Nat}

theorem mem_insert {row : String × Nat} (h : row ∈ (s.insert jti).revoked) :
    row ∈ s.revoked ∨ row = (jti, s.nowMs) := by
  unfold insert at h
  split_ifs at h with hin
  · exact .inl h
  · simpa using h

theorem mem_prune {row : String × Nat} : row ∈ s.prune.revoked ↔
    row ∈ s.revoked ∧ s.nowMs - retentionSecs * 1000 ≤ row.2 := by
  simp [prune]

theorem nowMs_insert : (s.insert jti).nowMs = s.nowMs := by
  unfold insert
  split_ifs <;> rfl

/-- Every row of the token is younger than the token. -/
def Fresh (s : DenyList) (jti : String) (since : Nat) : Prop :=
  since ≤ s.nowMs ∧ ∀ t, (jti, t) ∈ s.revoked → since ≤ t

/-- It is on the list, or has been on it for longer than it can have lived. -/
def Out (s : DenyList) (jti : String) (since : Nat) : Prop :=
  (∃ t, (jti, t) ∈ s.revoked) ∨ since + retentionSecs * 1000 < s.nowMs

theorem Fresh.insert (h : s.Fresh jti since) (other : String) : (s.insert other).Fresh jti since := by
  refine ⟨nowMs_insert.symm ▸ h.1, fun t ht => ?_⟩
  rcases mem_insert ht with hold | hnew
  · exact h.2 t hold
  · rw [(Prod.mk.inj hnew).2]
    exact h.1

theorem Fresh.prune (h : s.Fresh jti since) : s.prune.Fresh jti since := ⟨h.1, fun t ht => h.2 t (mem_prune.mp ht).1⟩

theorem Fresh.step (h : s.Fresh jti since) (e : TokenEvent T) : (s.step e).Fresh jti since := by
  cases e with
  | tick ms => exact ⟨Nat.le_add_right_of_le h.1, h.2⟩
  | revoke other => exact (h.insert other).prune
  | prune => exact h.prune
  | mint | request => exact h

theorem Out.insert (h : s.Out jti since) (other : String) : (s.insert other).Out jti since := by
  rcases h with ⟨t, ht⟩ | hlong
  · refine .inl ⟨t, ?_⟩
    unfold DenyList.insert
    split_ifs
    · exact ht
    · exact mem_append_left _ ht
  · exact .inr (lt_of_lt_of_eq hlong nowMs_insert.symm)

section

variable (h : s.Out jti since) (hfresh : s.Fresh jti since)
include h hfresh

/-- What is pruned has been on the list for the time a row is kept. -/
theorem Out.prune : s.prune.Out jti since := by
  rcases h with ⟨t, ht⟩ | hlong
  · by_cases hkept : s.nowMs - retentionSecs * 1000 ≤ t
    · exact .inl ⟨t, mem_prune.mpr ⟨ht, hkept⟩⟩
    · have hsince := hfresh.2 t ht
      exact .inr (show since + retentionSecs * 1000 < s.nowMs by omega)
  · exact .inr hlong

theorem Out.step (e : TokenEvent T) : (s.step e).Out jti since := by
  cases e with
  | tick ms => exact h.imp id fun hlong => Nat.lt_add_right ms hlong
  | revoke other => exact (h.insert other).prune (hfresh.insert other)
  | prune => exact h.prune hfresh
  | mint | request => exact h

omit h hfresh in
theorem out_revoke (hfresh : s.Fresh jti since) : (s.revoke jti).Out jti since := by
  refine Out.prune (.inl ?_) (hfresh.insert jti)
  unfold DenyList.insert
  split_ifs with hin
  · obtain ⟨⟨_, t⟩, ht, heq⟩ := any_eq_true.mp hin
    obtain rfl : _ = jti := by simpa using heq
    exact ⟨t, ht⟩
  · exact ⟨s.nowMs, by simp⟩

omit h hfresh in
theorem Fresh.run (h : s.Fresh jti since) (events : List (TokenEvent T)) : (s.run events).Fresh jti since := by
  induction events generalizing s with
  | nil => exact h
  | cons e events ih => exact ih (h.step e)

theorem Out.run (events : List (TokenEvent T)) : (s.run events).Out jti since := by
  induction events generalizing s with
  | nil => exact h
  | cons e events ih => exact ih (h.step hfresh e) (hfresh.step e)

end

/-- A name that nobody revokes does not come onto the list. -/
theorem not_mem_run (hs : ∀ t, (jti, t) ∉ s.revoked) {events : List (TokenEvent T)}
    (hnone : .revoke jti ∉ events) : ∀ t, (jti, t) ∉ (s.run events).revoked := by
  induction events generalizing s with
  | nil => exact hs
  | cons e events ih =>
    refine ih (fun t ht => ?_) fun hin => hnone (mem_cons_of_mem _ hin)
    cases e with
    | tick | mint | request => exact hs t ht
    | revoke other =>
      rcases mem_insert (mem_prune.mp ht).1 with hold | hnew
      · exact hs t hold
      · rw [(Prod.mk.inj hnew).1] at hnone
        exact hnone mem_cons_self
    | prune => exact hs t (mem_prune.mp ht).1

end DenyList

/-- Once a token is revoked, no request over REST comes in with it again: if it is given a new name,
and a life that ends, with the leeway, before a row of the deny-list may be pruned. -/
theorem revoked_stays_out [DecidableEq T] [Jwt T] (cfg : Config T) (s₀ : DenyList) (before mid after : List (TokenEvent T))
    (m : Mint) (allow : String → Bool) (hnew : ∀ t, (m.jti, t) ∉ s₀.revoked)
    (hunused : .revoke m.jti ∉ before) (hlife : m.lifetime + leewaySecs T < retentionSecs)
    (hboot : cfg.bootstrapAdminToken ≠ some (m.token cfg (s₀.run before)).1) :
    authenticated cfg
      ((s₀.run (before ++ .mint m :: mid ++ .revoke m.jti :: after)).surroundings allow) .rest
      (some (m.token cfg (s₀.run before)).1) = false := by
  obtain ⟨minted, hminted⟩ : ∃ minted, s₀.run before = minted := ⟨_, rfl⟩
  have hrun : s₀.run (before ++ .mint m :: mid ++ .revoke m.jti :: after) =
      ((minted.run (.mint m :: mid)).revoke m.jti).run after := by
    simp only [← hminted, DenyList.run, foldl_append, foldl_cons, DenyList.step]
  have hfresh : minted.Fresh m.jti minted.nowMs :=
    ⟨Nat.le_refl _, fun t ht => absurd (hminted ▸ ht) (DenyList.not_mem_run hnew hunused t)⟩
  have hfresh' : (minted.run (.mint m :: mid)).Fresh m.jti minted.nowMs := hfresh.run _
  have hout := (DenyList.out_revoke hfresh').run (hfresh'.step (T := T) (.revoke m.jti)) after
  rw [hrun, hminted]
  generalize ((minted.run (.mint m :: mid)).revoke m.jti).run after = last at hout
  rw [← Bool.not_eq_true]
  intro hauth
  have hjti : m.jti ≠ "" := by simp [Mint.jti]
  obtain ⟨hrevoked, hexp⟩ := authenticated_rest (hminted ▸ hboot) hjti hauth
  rcases hout with ⟨t, ht⟩ | hlong
  · refine hrevoked (congrArg some (Bool.and_eq_true_iff.mpr ⟨decide_eq_true hjti, ?_⟩))
    exact any_eq_true.mpr ⟨_, ht, beq_self_eq_true _⟩
  · -- the row may be gone, but the token has expired before
    change last.nowMs / 1000 ≤ minted.nowMs / 1000 + m.lifetime + leewaySecs T at hexp
    omega

/-- A token as the key it was signed with and what was signed; clocks are forgiven a minute. -/
structure Signed where
  key : String
  claims : Claims
deriving DecidableEq

instance : Jwt Signed where
  encode := Signed.mk
  decode key now token :=
    if token.key ≠ key then .error "InvalidSignature"
    else if token.claims.exp + 60 < now then .error "ExpiredSignature"
    else .ok token.claims
  leewaySecs := 60
  decode_encode h := by
    split_ifs at h
    exact (Except.ok.inj h).symm
  expiry h := by
    split_ifs at h with _ hexp
    exact Nat.not_lt.mp hexp

def signing : Config Signed := ⟨true, "secret", none, none⟩

/-- A day's token, revoked an hour after it was minted. -/
theorem revoked_stays_out_day :
    let m : Mint := ⟨.login, "alice", "admin", "global", none, "a1"⟩
    authenticated signing
      ((DenyList.run (T := Signed) ⟨0, []⟩ ([.tick 5000] ++ .mint m ::
        [.tick 3600000] ++ .revoke "jti_a1" :: [.tick 1000, .revoke "jti_b2", .prune])).surroundings
        fun _ => true) .rest
      (some (m.token signing (DenyList.run (T := Signed) ⟨0, []⟩ [.tick 5000])).1) = false :=
  revoked_stays_out signing ⟨0, []⟩ [.tick 5000] [.tick 3600000]
    [.tick 1000, .revoke "jti_b2", .prune] ⟨.login, "alice", "admin", "global", none, "a1"⟩
    (fun _ => true) (by simp) (by simp) (by decide +kernel) (by simp [signing])

/-- The gRPC edge lets a revoked token through; and so does the REST edge, 31 days on, once another
revocation has pruned the row of a token that lives for 90. -/
theorem revoked_comes_back :
    let m : Mint := ⟨.issueToken, "svc", "operator", "global", some maxTtl, "a1"⟩
    let token := (m.token signing ⟨0, []⟩).1
    authenticated signing
        ((DenyList.run (T := Signed) ⟨0, []⟩ [.mint m, .revoke "jti_a1"]).surroundings fun _ => true) .grpc
        (some token) = true ∧
      authenticated signing ((DenyList.run (T := Signed) ⟨0, []⟩ [.mint m, .revoke "jti_a1",
        .tick (31 * 24 * 3600 * 1000), .revoke "jti_b2"]).surroundings fun _ => true)
        .rest (some token) = true := by
  decide +kernel

end AtlasNative.Gateway
