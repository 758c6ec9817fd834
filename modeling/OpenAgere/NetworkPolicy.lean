import OpenAgere.Text
import OpenAgere.Glob

/-! # Host patterns of the network proxy

`network-proxy/src/policy.rs`: hosts and host patterns are normalised, patterns are expanded into globs
and compiled into a set, and for the comparison with managed constraints they are read a second time, by
`parseForConstraints`, with the host part left to `url`.  A compiled set matches what one of the globs of
its patterns matches (`isMatch_of_compile`), and neither the compilation nor the normalisation tells the
cases of ASCII letters apart (`normalizePattern_lower`). -/

namespace OpenAgere.Network

open List Text

open scoped Str

/-- The messages of an `anyhow::Error`, the outermost context first. -/
abbrev Failure := List Str

/-- What the policy asks of the address parser, of `url` and of `globset`. -/
structure PolicyEnvironment where
  /-- `text.parse::<IpAddr>().is_ok()` -/
  isIpAddr : Str → Bool
  /-- `url::Host::parse(text)`, printed -/
  parseUrlHost : Str → Option Str
  /-- `GlobBuilder::build`, or its error -/
  buildGlob : Str → Except Str Unit
  /-- `GlobSetBuilder::build`, or its error -/
  buildGlobSet : List Str → Except Str Unit
  /-- a case-insensitive glob of `globset` against a text -/
  globIsMatch : Str → Str → Bool

/-! ### Normalisation -/

/-- `trim_end_matches('.')` -/
def trimEndDots (s : Str) : Str := s.rdropWhile (· == '.')

section Model

variable (env : PolicyEnvironment)

def normalizeIpLiteral (host : Str) : Option Str :=
  if env.isIpAddr host then some host
  else ["%25".toList, "%".toList].findSome? fun delimiter =>
    match splitOnce delimiter host with
    | some (ip, scope) => if env.isIpAddr ip then some (ip ++ '%' :: scope) else none
    | none => none

def normalizeDnsHostOrIpLiteral (host : Str) : Str :=
  (normalizeIpLiteral env (trimEndDots (toAsciiLowercase host))).getD (trimEndDots (toAsciiLowercase host))

/-- The part of a trimmed host that is kept: what stands between brackets, or what stands before the only
colon, or everything. -/
def hostPart (host : Str) : Str :=
  if host.head? = some '[' ∧ ']' ∈ host then (host.takeWhile (· ≠ ']')).tail
  else if host.count ':' = 1 then host.takeWhile (· ≠ ':')
  else host

def normalizeHost (host : Str) : Str := normalizeDnsHostOrIpLiteral env (hostPart (trim host))

/-- `Host::parse` -/
def Host.parse (input : Str) : Except Failure Str :=
  if normalizeHost env input = [] then .error ["host is empty"] else .ok (normalizeHost env input)

def normalizePattern (pattern : Str) : Str :=
  if trim pattern = "*" then "*"
  else match stripPrefix "**." (trim pattern) with
    | some domain => "**." ++ normalizeHost env domain
    | none => match stripPrefix "*." (trim pattern) with
      | some domain => "*." ++ normalizeHost env domain
      | none => normalizeHost env (trim pattern)

/-! ### Patterns -/

inductive DomainPattern where
  | apexAndSubdomains (domain : Str)
  | subdomainsOnly (domain : Str)
  | exact (domain : Str)
deriving DecidableEq, Repr

namespace DomainPattern

def domain : DomainPattern → Str
  | apexAndSubdomains domain => domain
  | subdomainsOnly domain => domain
  | exact domain => domain

def parseDomain (domain : Str) (build : Str → DomainPattern) : DomainPattern :=
  if trim domain = [] then exact [] else build (trim domain)

def parse (input : Str) : DomainPattern :=
  if trim input = [] then exact []
  else match stripPrefix "**." (trim input) with
    | some domain => parseDomain domain apexAndSubdomains
    | none => match stripPrefix "*." (trim input) with
      | some domain => parseDomain domain subdomainsOnly
      | none => exact (trim input)

end DomainPattern

/-- A text between brackets, or the whole text. -/
def unbracketed (domain : Str) : Str :=
  if domain.head? = some '[' ∧ domain.getLast? = some ']' then domain.tail.dropLast else domain

def parseDomainForConstraints (domain : Str) : Str :=
  if trimEndDots (trim domain) = [] then []
  else if '*' ∈ unbracketed (trimEndDots (trim domain)) ∨ '?' ∈ unbracketed (trimEndDots (trim domain)) ∨
      '%' ∈ unbracketed (trimEndDots (trim domain)) then trimEndDots (trim domain)
  else (env.parseUrlHost (unbracketed (trimEndDots (trim domain)))).getD []

def DomainPattern.parseForConstraints (input : Str) : DomainPattern :=
  if trim input = [] then exact []
  else match stripPrefix "**." (trim input) with
    | some domain => apexAndSubdomains (parseDomainForConstraints env domain)
    | none => match stripPrefix "*." (trim input) with
      | some domain => subdomainsOnly (parseDomainForConstraints env domain)
      | none => exact (parseDomainForConstraints env (trim input))

def normalizeDomain (domain : Str) : Str := toAsciiLowercase (trimEndDots domain)

def domainEq (left right : Str) : Bool := normalizeDomain left = normalizeDomain right

def isSubdomainOrEqual (child parent : Str) : Bool :=
  normalizeDomain child = normalizeDomain parent || ('.' :: normalizeDomain parent).isSuffixOf (normalizeDomain child)

def isStrictSubdomain (child parent : Str) : Bool :=
  normalizeDomain child ≠ normalizeDomain parent && ('.' :: normalizeDomain parent).isSuffixOf (normalizeDomain child)

def DomainPattern.allows : DomainPattern → DomainPattern → Bool
  | exact domain, exact candidate => domainEq candidate domain
  | exact _, _ => false
  | subdomainsOnly domain, exact candidate => isStrictSubdomain candidate domain
  | subdomainsOnly domain, subdomainsOnly candidate => isSubdomainOrEqual candidate domain
  | subdomainsOnly domain, apexAndSubdomains candidate => isStrictSubdomain candidate domain
  | apexAndSubdomains domain, exact candidate => isSubdomainOrEqual candidate domain
  | apexAndSubdomains domain, subdomainsOnly candidate => isSubdomainOrEqual candidate domain
  | apexAndSubdomains domain, apexAndSubdomains candidate => isSubdomainOrEqual candidate domain

def DomainPattern.expand : DomainPattern → List Str
  | exact domain => [domain]
  | subdomainsOnly domain => ["?*." ++ domain]
  | apexAndSubdomains domain => [domain, "?*." ++ domain]

def expandDomainPattern (pattern : Str) : List Str := (DomainPattern.parse pattern).expand

def isGlobalWildcardDomainPattern (pattern : Str) : Bool :=
  (expandDomainPattern (normalizePattern env pattern)).any (· == "*")

/-! ### Compilation -/

inductive GlobalWildcard where
  | allow
  | reject
deriving DecidableEq, Repr

/-- A compiled set, as the globs it was built of. -/
structure GlobSet where
  globs : List Str
deriving DecidableEq, Repr

def GlobSet.isMatch (set : GlobSet) (host : Str) : Bool := set.globs.any (env.globIsMatch · host)

def unsupportedGlobalWildcard : Str :=
  ("unsupported global wildcard domain pattern \"*\"; use exact hosts or scoped wildcards like " ++
    "*.example.com or **.example.com").toList

/-- The loop over the globs of one pattern; those seen before are the ones in the builder. -/
def addGlobs : List Str → List Str → Except Failure (List Str)
  | globs, [] => .ok globs
  | globs, candidate :: candidates =>
      if candidate ∈ globs then addGlobs globs candidates
      else match env.buildGlob candidate with
        | .error message => .error ["invalid glob pattern: " ++ candidate, message]
        | .ok () => addGlobs (globs ++ [candidate]) candidates

/-- The loop over the patterns. -/
def addPatterns (globalWildcard : GlobalWildcard) : List Str → List Str → Except Failure (List Str)
  | globs, [] => .ok globs
  | globs, pattern :: patterns =>
      if globalWildcard = .reject ∧ isGlobalWildcardDomainPattern env pattern then .error [unsupportedGlobalWildcard]
      else (addGlobs env globs (expandDomainPattern (normalizePattern env pattern))).bind fun globs =>
        addPatterns globalWildcard globs patterns

def compileGlobsetWithPolicy (patterns : List Str) (globalWildcard : GlobalWildcard) : Except Failure GlobSet :=
  (addPatterns env globalWildcard [] patterns).bind fun globs =>
    match env.buildGlobSet globs with
    | .error message => .error [message]
    | .ok () => .ok ⟨globs⟩

def compileAllowlistGlobset (patterns : List Str) : Except Failure GlobSet :=
  compileGlobsetWithPolicy env patterns .allow

def compileDenylistGlobset (patterns : List Str) : Except Failure GlobSet :=
  compileGlobsetWithPolicy env patterns .reject

end Model

/-! ### ASCII case -/

theorem toNat_toLower (c : Char) :
    c.toLower.toNat = if 65 ≤ c.toNat ∧ c.toNat ≤ 90 then c.toNat + 32 else c.toNat := by
  unfold Char.toLower
  split_ifs with h1 h2 h3
  · have h : c.val.toNat ≤ 90 := h2.2
    show (c.val + 32).toNat = c.val.toNat + 32
    rw [UInt32.toNat_add]
    exact Nat.mod_eq_of_lt (by simp; omega)
  · exact absurd ⟨h1.1, h1.2⟩ h2
  · exact absurd ⟨h3.1, h3.2⟩ h1
  · rfl

theorem toLower_toLower (c : Char) : c.toLower.toLower = c.toLower := by
  apply Char.toNat_inj.mp
  rw [toNat_toLower, toNat_toLower]
  split_ifs <;> omega

theorem toLower_eq_iff {c d : Char} (hd : d.isAlpha = false) : c.toLower = d ↔ c = d := by
  have hd' : ¬ (65 ≤ d.toNat ∧ d.toNat ≤ 90) ∧ ¬ (97 ≤ d.toNat ∧ d.toNat ≤ 122) := by
    obtain ⟨hupper, hlower⟩ := Bool.or_eq_false_iff.mp (show (d.isUpper || d.isLower) = false from hd)
    have hlower : decide (97 ≤ d.val ∧ d.val ≤ 122) = false := (Bool.decide_and _ _).trans hlower
    exact ⟨of_decide_eq_false hupper, of_decide_eq_false hlower⟩
  constructor
  · rintro rfl
    rw [toNat_toLower] at hd'
    apply Char.toNat_inj.mp
    rw [toNat_toLower]
    split_ifs at hd' ⊢ <;> omega
  · rintro rfl
    apply Char.toNat_inj.mp
    rw [toNat_toLower, if_neg hd'.1]

theorem isWhitespace_toLower (c : Char) : isWhitespace c.toLower = isWhitespace c := by
  unfold isWhitespace
  rw [toNat_toLower, Bool.eq_iff_iff]
  split_ifs with h
  · simp
    omega
  · rfl

@[simp] theorem toAsciiLowercase_idem (s : Str) : toAsciiLowercase (toAsciiLowercase s) = toAsciiLowercase s := by
  unfold toAsciiLowercase
  rw [map_map]
  exact map_congr_left fun c _ => toLower_toLower c

@[simp] theorem toAsciiLowercase_eq_nil {s : Str} : toAsciiLowercase s = [] ↔ s = [] := map_eq_nil_iff

section Cut

variable {p : Char → Bool} (hp : ∀ c, p c.toLower = p c)
include hp

theorem dropWhile_lower (s : Str) : (toAsciiLowercase s).dropWhile p = toAsciiLowercase (s.dropWhile p) := by
  unfold toAsciiLowercase
  rw [dropWhile_map, show p ∘ Char.toLower = p from funext hp]

theorem takeWhile_lower (s : Str) : (toAsciiLowercase s).takeWhile p = toAsciiLowercase (s.takeWhile p) := by
  unfold toAsciiLowercase
  rw [takeWhile_map, show p ∘ Char.toLower = p from funext hp]

theorem rdropWhile_lower (s : Str) : (toAsciiLowercase s).rdropWhile p = toAsciiLowercase (s.rdropWhile p) := by
  unfold List.rdropWhile toAsciiLowercase
  rw [← map_reverse, dropWhile_map, show p ∘ Char.toLower = p from funext hp, map_reverse]

end Cut

theorem beq_toLower {d : Char} (hd : d.isAlpha = false) (c : Char) : (c.toLower == d) = (c == d) := by
  rw [Bool.eq_iff_iff, beq_iff_eq, beq_iff_eq]
  exact toLower_eq_iff hd

theorem trim_lower (s : Str) : trim (toAsciiLowercase s) = toAsciiLowercase (trim s) := by
  unfold trim trimEnd trimStart
  rw [dropWhile_lower isWhitespace_toLower, rdropWhile_lower isWhitespace_toLower]

theorem trimEndDots_lower (s : Str) : trimEndDots (toAsciiLowercase s) = toAsciiLowercase (trimEndDots s) :=
  rdropWhile_lower (beq_toLower (by decide)) s

theorem mem_lower {d : Char} (hd : d.isAlpha = false) {s : Str} : d ∈ toAsciiLowercase s ↔ d ∈ s := by
  unfold toAsciiLowercase
  rw [List.mem_map]
  constructor
  · rintro ⟨c, hc, h⟩
    exact (toLower_eq_iff hd).mp h ▸ hc
  · exact fun h => ⟨d, h, (toLower_eq_iff hd).mpr rfl⟩

/-- Texts without letters, by evaluation. -/
theorem not_isAlpha_of_any {s : Str} (h : s.any Char.isAlpha = false) (c : Char) (hc : c ∈ s) : c.isAlpha = false :=
  Bool.eq_false_of_not_eq_true (any_eq_false.mp h c hc)

theorem stripPrefix_lower : ∀ {p s : Str}, (∀ d ∈ p, d.isAlpha = false) →
    stripPrefix p (toAsciiLowercase s) = (stripPrefix p s).map toAsciiLowercase
  | [], _, _ => rfl
  | _ :: _, [], _ => rfl
  | d :: p, c :: s, h => by
    show (if d = c.toLower then stripPrefix p (toAsciiLowercase s) else none) =
      (if d = c then stripPrefix p s else none).map toAsciiLowercase
    have hd : d = c.toLower ↔ d = c := by
      rw [eq_comm, toLower_eq_iff (h d mem_cons_self), eq_comm]
    rw [stripPrefix_lower fun e he => h e (mem_cons_of_mem d he)]
    simp only [hd]
    split_ifs <;> rfl

theorem map_toLower_eq_some {d : Char} (hd : d.isAlpha = false) {o : Option Char} :
    o.map Char.toLower = some d ↔ o = some d := by
  cases o <;> simp [toLower_eq_iff hd]

theorem ne_toLower {d : Char} (hd : d.isAlpha = false) (c : Char) : decide (c.toLower ≠ d) = decide (c ≠ d) := by
  rw [decide_eq_decide]
  exact not_congr (toLower_eq_iff hd)

theorem count_lower {d : Char} (hd : d.isAlpha = false) (s : Str) : (toAsciiLowercase s).count d = s.count d := by
  unfold toAsciiLowercase List.count
  rw [countP_map, show ((· == d) ∘ Char.toLower) = (· == d) from funext (beq_toLower hd)]

theorem hostPart_lower (s : Str) : hostPart (toAsciiLowercase s) = toAsciiLowercase (hostPart s) := by
  have hhead : (toAsciiLowercase s).head? = some '[' ↔ s.head? = some '[' := by
    unfold toAsciiLowercase
    rw [head?_map, map_toLower_eq_some (by decide)]
  have hmem : ']' ∈ toAsciiLowercase s ↔ ']' ∈ s := mem_lower (by decide)
  unfold hostPart
  simp only [hhead, hmem, count_lower (show ':'.isAlpha = false by decide)]
  split_ifs
  · rw [takeWhile_lower (ne_toLower (by decide))]
    exact map_tail.symm
  · exact takeWhile_lower (ne_toLower (by decide)) s
  · rfl

variable {env : PolicyEnvironment}

theorem normalizeHost_lower (s : Str) : normalizeHost env (toAsciiLowercase s) = normalizeHost env s := by
  unfold normalizeHost normalizeDnsHostOrIpLiteral
  rw [trim_lower, hostPart_lower, toAsciiLowercase_idem]

/-- **The case of a pattern's letters** is lost when it is normalised. -/
theorem normalizePattern_lower (s : Str) : normalizePattern env (toAsciiLowercase s) = normalizePattern env s := by
  have hstar : toAsciiLowercase (trim s) = "*" ↔ trim s = "*" := by
    match trim s with
    | [] => exact Iff.rfl
    | [c] => simpa [toAsciiLowercase] using toLower_eq_iff (d := '*') (by decide)
    | c :: d :: t => simp [toAsciiLowercase]
  unfold normalizePattern
  rw [trim_lower, stripPrefix_lower (not_isAlpha_of_any rfl), stripPrefix_lower (not_isAlpha_of_any rfl),
    normalizeHost_lower]
  simp only [hstar]
  cases stripPrefix "**." (trim s) with
  | some domain => simp only [Option.map_some, normalizeHost_lower]
  | none =>
    cases stripPrefix "*." (trim s) with
    | some domain => simp only [Option.map_some, Option.map_none, normalizeHost_lower]
    | none => rfl

/-! ### What a compiled set matches -/

/-- One of the globs of the pattern matches the host. -/
def PatternMatches (env : PolicyEnvironment) (pattern host : Str) : Prop :=
  ∃ glob ∈ expandDomainPattern (normalizePattern env pattern), env.globIsMatch glob host

/-- One of the patterns matches the host. -/
def PatternsMatch (env : PolicyEnvironment) (patterns : List Str) (host : Str) : Prop :=
  ∃ pattern ∈ patterns, PatternMatches env pattern host

theorem mem_addGlobs : ∀ {candidates globs result : List Str}, addGlobs env globs candidates = .ok result →
    ∀ {glob : Str}, glob ∈ result ↔ glob ∈ globs ∨ glob ∈ candidates
  | [], globs, result, h, glob => by
    obtain rfl := Except.ok.inj h
    simp
  | candidate :: candidates, globs, result, h, glob => by
    unfold addGlobs at h
    split at h
    · next hin =>
        rw [mem_addGlobs h, mem_cons]
        constructor
        · rintro (h | h)
          · exact .inl h
          · exact .inr (.inr h)
        · rintro (h | rfl | h)
          · exact .inl h
          · exact .inl hin
          · exact .inr h
    · split at h
      · cases h
      · rw [mem_addGlobs h, mem_append, mem_singleton, mem_cons, or_assoc]

theorem mem_addPatterns {globalWildcard : GlobalWildcard} : ∀ {patterns globs result : List Str},
    addPatterns env globalWildcard globs patterns = .ok result → ∀ {glob : Str}, glob ∈ result ↔
      glob ∈ globs ∨ ∃ pattern ∈ patterns, glob ∈ expandDomainPattern (normalizePattern env pattern)
  | [], globs, result, h, glob => by
    obtain rfl := Except.ok.inj h
    simp
  | pattern :: patterns, globs, result, h, glob => by
    unfold addPatterns at h
    split at h
    · cases h
    · cases hg : addGlobs env globs (expandDomainPattern (normalizePattern env pattern)) with
      | error failure => rw [hg] at h; cases h
      | ok added =>
        rw [hg] at h
        rw [mem_addPatterns (show addPatterns env globalWildcard added patterns = .ok result from h),
          mem_addGlobs hg, exists_mem_cons_iff, or_assoc]

/-- **A compiled set** matches a host exactly when one of its patterns does. -/
theorem isMatch_of_compile {patterns : List Str} {globalWildcard : GlobalWildcard} {set : GlobSet}
    (h : compileGlobsetWithPolicy env patterns globalWildcard = .ok set) (host : Str) :
    set.isMatch env host ↔ PatternsMatch env patterns host := by
  unfold compileGlobsetWithPolicy at h
  cases hp : addPatterns env globalWildcard [] patterns with
  | error failure => rw [hp] at h; cases h
  | ok globs =>
    rw [hp] at h
    cases hb : env.buildGlobSet globs with
    | error message =>
      simp only [Except.bind, hb] at h
      cases h
    | ok u =>
      simp only [Except.bind, hb] at h
      obtain rfl := Except.ok.inj h
      unfold GlobSet.isMatch PatternsMatch PatternMatches
      rw [any_eq_true]
      constructor
      · rintro ⟨glob, hglob, hm⟩
        obtain h | ⟨pattern, hpat, hg⟩ := (mem_addPatterns hp).mp hglob
        · exact absurd h (not_mem_nil)
        · exact ⟨pattern, hpat, glob, hg, hm⟩
      · rintro ⟨pattern, hpat, glob, hg, hm⟩
        exact ⟨glob, (mem_addPatterns hp).mpr (.inr ⟨pattern, hpat, hg⟩), hm⟩

end OpenAgere.Network
