import Mathlib

/-!
# Who a request comes from

The gateway has two edges, REST and gRPC. Each resolves the bearer of a request to an actor by a
chain of its own: the bootstrap token, then a signed token, then the rate limit. Only the REST chain
looks at the deny-list. How tokens are signed and checked is the business of a library, `Jwt`.
-/

namespace AtlasNative.Gateway

structure Claims where
  sub : String
  role : String
  exp : Nat
  jti : String
  tenantId : String
deriving DecidableEq, Repr

def defaultTenant : String := "global"

structure Actor where
  id : String
  role : String
  tenantId : String
deriving DecidableEq, Repr

def Actor.anonymous : Actor := ⟨"anonymous", "viewer", defaultTenant⟩

/-! ### Tokens -/

/-- The library that signs tokens (`jsonwebtoken::encode`, HS256) and checks them (`decode`, at a
time in seconds). What the gateway relies on are the laws. -/
class Jwt (T : Type) where
  encode : String → Claims → T
  decode : String → Nat → T → Except String Claims
  /-- What the library forgives a clock. -/
  leewaySecs : Nat
  /-- A signed token is accepted, under whatever key, for what was signed. -/
  decode_encode : ∀ {key key' now c c'}, decode key' now (encode key c) = .ok c' → c' = c
  /-- It is accepted only until it expires. -/
  expiry : ∀ {key key' now c c'}, decode key' now (encode key c) = .ok c' → now ≤ c.exp + leewaySecs

open Jwt

structure Config (T : Type) where
  authRequired : Bool
  jwtSecret : String
  jwtSecretPrevious : Option String
  bootstrapAdminToken : Option T

section

variable {T : Type} [Jwt T]

def decodeToken (token : T) (secret : String) (previousSecret : Option String) (nowSecs : Nat) :
    Except String Claims :=
  match decode secret nowSecs token, previousSecret with
  | .ok claims, _ => .ok claims
  | .error _, some prev => decode prev nowSecs token
  | .error e, none => .error e

/-- Whatever is accepted was accepted under one of the two keys. -/
theorem decode_of_decodeToken {token : T} {secret : String} {prev : Option String} {now : Nat}
    {c : Claims} (h : decodeToken token secret prev now = .ok c) : ∃ key, decode key now token = .ok c := by
  unfold decodeToken at h
  split at h
  · next hok => exact ⟨secret, hok.trans h⟩
  · next prev _ => exact ⟨prev, h⟩
  · cases h

/-- `now` in seconds; the name of a new token is `jti_` and random digits. -/
def mintToken (secret subject role tenantId : String) (ttlSecs nowSecs : Nat) (short : String) :
    T × Nat × String :=
  let exp := nowSecs + ttlSecs
  let jti := "jti_" ++ short
  (encode secret { sub := subject, role, exp, jti, tenantId }, exp, jti)

end

/-! ### The two edges -/

inductive Denied where
  | missingBearerToken
  | revoked
  | invalid (e : String)
  | rateLimited
deriving DecidableEq, Repr

/-- What the middleware meets besides the request: what the deny-list answers (nothing, if the
database does not), and whether the actor is within its rate. -/
structure Surroundings where
  nowSecs : Nat
  isRevoked : String → Option Bool
  allow : String → Bool

def bootstrapActor : Actor := ⟨"bootstrap", "admin", defaultTenant⟩

variable {T : Type} [DecidableEq T] [Jwt T]

/-- `auth_middleware`, the REST edge. -/
def authMiddleware (cfg : Config T) (env : Surroundings) (bearer : Option T) :
    Except Denied Actor := do
  let actor ←
    if !cfg.authRequired then pure Actor.anonymous
    else match bearer with
    | none => throw .missingBearerToken
    | some token =>
      if cfg.bootstrapAdminToken = some token then pure bootstrapActor
      else match decodeToken token cfg.jwtSecret cfg.jwtSecretPrevious env.nowSecs with
      | .ok claims =>
        -- a database that does not answer lets the token pass
        if claims.jti ≠ "" ∧ env.isRevoked claims.jti = some true then throw .revoked
        else pure ⟨claims.sub, claims.role, claims.tenantId⟩
      | .error e => throw (.invalid e)
  if env.allow actor.id then pure actor else throw .rateLimited

structure GrpcActor where
  id : String
  role : String
deriving DecidableEq, Repr

/-- The gRPC interceptor. -/
def grpcInterceptor (cfg : Config T) (env : Surroundings) (bearer : Option T) :
    Except Denied GrpcActor := do
  let actor ←
    if !cfg.authRequired then pure ⟨"anonymous", "viewer"⟩
    else match bearer with
    | none => throw .missingBearerToken
    | some token =>
      if cfg.bootstrapAdminToken = some token then pure ⟨"bootstrap", "admin"⟩
      else match decodeToken token cfg.jwtSecret cfg.jwtSecretPrevious env.nowSecs with
      | .ok claims => pure ⟨claims.sub, claims.role⟩
      | .error e => throw (.invalid e)
  if env.allow actor.id then pure actor else throw .rateLimited

inductive Edge where
  | rest
  | grpc
deriving DecidableEq, Repr

/-- The request comes through, on the word of its bearer. -/
def authenticated (cfg : Config T) (env : Surroundings) (edge : Edge) (bearer : Option T) : Bool :=
  cfg.authRequired && match edge with
    | .rest => (authMiddleware cfg env bearer).isOk
    | .grpc => (grpcInterceptor cfg env bearer).isOk

/-- On the REST edge a token comes through only while it has not expired and is not on the
deny-list. -/
theorem authenticated_rest {cfg : Config T} {env : Surroundings} {key : String} {c : Claims}
    (hboot : cfg.bootstrapAdminToken ≠ some (encode key c)) (hjti : c.jti ≠ "")
    (h : authenticated cfg env .rest (some (encode key c)) = true) :
    env.isRevoked c.jti ≠ some true ∧ env.nowSecs ≤ c.exp + leewaySecs T := by
  obtain ⟨hreq, hok⟩ := Bool.and_eq_true_iff.mp h
  unfold authMiddleware at hok
  simp only [hreq, Bool.not_true, Bool.false_eq_true, if_false, if_neg hboot] at hok
  cases hdec : decodeToken (encode key c : T) cfg.jwtSecret cfg.jwtSecretPrevious env.nowSecs with
  | error e =>
    rw [hdec] at hok
    cases hok
  | ok claims =>
    obtain ⟨key', hkey⟩ := decode_of_decodeToken hdec
    obtain rfl := decode_encode hkey
    refine ⟨fun hrev => ?_, expiry hkey⟩
    rw [hdec] at hok
    simp only [hjti, hrev, ne_eq, not_false_eq_true, and_self, if_true] at hok
    cases hok

end AtlasNative.Gateway
