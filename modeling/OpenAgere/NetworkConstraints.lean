import OpenAgere.NetworkConfig

/-! # Managed constraints on the domain lists

What acceptance by `validatePolicyAgainstConstraints` says about the hosts that the compiled sets match.
The denied list always contains the managed one up to the case of letters.  The allowed list is compared
with the managed one by `parseForConstraints`, which reads a pattern in another way than the compilation:
for patterns of plain characters the two readings differ only in the hosts that `url` rejects
(`parseForConstraints_of_plain`), and a pattern that another one allows matches no other hosts unless its
first label may be empty (`patternsMatch_of_covers`).  `bounded_iff` puts the two together. -/

namespace OpenAgere.Network

open Text Glob DomainPattern

open scoped Str

/-! ### Plain patterns -/

/-- ASCII characters that are neither blank nor part of the notation for ports, brackets, scopes or globs
other than the two wildcards. -/
def isPlainChar (c : Char) : Bool :=
  c.toNat < 128 && !isWhitespace c && c ∉ [':', '[', ']', '%', '\x7b', '\x7d', '\\']

def Plain (s : Str) : Prop := ∀ c ∈ s, isPlainChar c

instance (s : Str) : Decidable (Plain s) := decidable_of_iff (s.all isPlainChar = true) List.all_eq_true

/-- The tokens of a glob without character classes and alternatives. -/
def globTokens (glob : Str) : List (Token Char) :=
  glob.map fun c => if c = '?' then .one else if c = '*' then .many else .lit c

/-- What is documented of `url` and `globset` on plain texts: a host is returned in lower case or not at
all, and `?` and `*` stand for one and for any characters. -/
structure PolicyEnvironment.Documented (env : PolicyEnvironment) (fold : Char → Char) : Prop where
  parseUrlHost : ∀ {host result : Str}, Plain host → env.parseUrlHost host = some result →
    result = toAsciiLowercase host
  globIsMatch : ∀ {glob : Str}, Plain glob → ∀ host, env.globIsMatch glob host = isMatch fold (globTokens glob) host

variable {s : Str} {c : Char}

theorem Plain.ne (h : Plain s) (hc : isPlainChar c = false) : c ∉ s := by
  intro hs
  rw [h c hs] at hc
  cases hc

variable {t : Str}

theorem Plain.sublist (h : Plain t) (hs : s.Sublist t) : Plain s := fun c hc => h c (hs.subset hc)

theorem Plain.append (hs : Plain s) (ht : Plain t) : Plain (s ++ t) :=
  fun c hc => (List.mem_append.mp hc).elim (hs c) (ht c)

theorem toLower_mem_iff {l : List Char} (h : ∀ d ∈ l, d.isAlpha = false) : c.toLower ∈ l ↔ c ∈ l := by
  constructor
  · intro hc
    rw [(toLower_eq_iff (h _ hc)).mp rfl]
    exact hc
  · intro hc
    rw [(toLower_eq_iff (h c hc)).mpr rfl]
    exact hc

theorem isPlainChar_toLower (h : isPlainChar c) : isPlainChar c.toLower := by
  unfold isPlainChar at h ⊢
  simp only [Bool.and_eq_true, decide_eq_true_eq, Bool.not_eq_true', isWhitespace_toLower] at h ⊢
  refine ⟨⟨?_, h.1.2⟩, ?_⟩
  · have := h.1.1
    rw [toNat_toLower]
    split_ifs with hc <;> omega
  · exact fun hm => h.2 ((toLower_mem_iff (not_isAlpha_of_any rfl)).mp hm)

theorem Plain.lower (h : Plain s) : Plain (toAsciiLowercase s) := by
  intro c hc
  obtain ⟨d, hd, rfl⟩ := List.mem_map.mp hc
  exact isPlainChar_toLower (h d hd)

theorem Plain.trim_eq (h : Plain s) : trim s = s := by
  have hw : ∀ c ∈ s, isWhitespace c = false := by
    intro c hc
    have := h c hc
    unfold isPlainChar at this
    simp only [Bool.and_eq_true, Bool.not_eq_true'] at this
    exact this.1.2
  cases s with
  | nil => rfl
  | cons c s =>
    rw [trim, trimStart_cons_of_not (hw c List.mem_cons_self)]
    exact List.rdropWhile_eq_self_iff.mpr fun hne => by
      rw [hw _ (List.getLast_mem hne)]
      exact Bool.false_ne_true

/-! ### The two readings of a plain pattern -/

/-- A host without trailing dots, in lower case. -/
def plainHost (s : Str) : Str := trimEndDots (toAsciiLowercase s)

/-- The reading of a plain pattern. -/
def readPattern (pattern : Str) : DomainPattern :=
  match stripPrefix "**." pattern with
  | some domain => .apexAndSubdomains (plainHost domain)
  | none => match stripPrefix "*." pattern with
    | some domain => .subdomainsOnly (plainHost domain)
    | none => .exact (plainHost pattern)

/-- The pattern with its domain normalised. -/
def DomainPattern.normalized : DomainPattern → DomainPattern
  | apexAndSubdomains domain => apexAndSubdomains (normalizeDomain domain)
  | subdomainsOnly domain => subdomainsOnly (normalizeDomain domain)
  | exact domain => exact (normalizeDomain domain)

/-- The globs of a pattern; those of an empty domain are the empty glob. -/
def DomainPattern.globs (pattern : DomainPattern) : List Str :=
  if pattern.domain = [] then [[]] else pattern.expand

theorem trimEndDots_idem (s : Str) : trimEndDots (trimEndDots s) = trimEndDots s :=
  List.rdropWhile_idempotent (p := (· == '.')) (l := s)

theorem normalizeDomain_eq (s : Str) : normalizeDomain s = plainHost s := (trimEndDots_lower s).symm

theorem Plain.plainHost (h : Plain s) : Plain (plainHost s) :=
  h.lower.sublist (List.rdropWhile_prefix _ _).sublist

variable {env : PolicyEnvironment} {fold : Char → Char}

theorem splitOnce_of_not_mem {d : Char} {sep : Str} : ∀ {s : Str}, d ∉ s → splitOnce (d :: sep) s = none
  | [], _ => rfl
  | c :: s, h => by
    have hs : d ≠ c ∧ d ∉ s := List.ne_and_not_mem_of_not_mem_cons h
    show (match (if d = c then stripPrefix sep s else none) with
      | some rest => some ([], rest)
      | none => (splitOnce (d :: sep) s).map fun parts => (c :: parts.1, parts.2)) = none
    rw [if_neg hs.1, splitOnce_of_not_mem hs.2]
    rfl

theorem normalizeHost_of_plain (h : Plain s) : normalizeHost env s = plainHost s := by
  have hpart : hostPart s = s := by
    unfold hostPart
    rw [if_neg fun hb => h.ne (by decide) hb.2, if_neg]
    rw [List.count_eq_zero_of_not_mem (h.ne (by decide))]
    decide
  have hip : (normalizeIpLiteral env (plainHost s)).getD (plainHost s) = plainHost s := by
    unfold normalizeIpLiteral
    have hpercent : '%' ∉ plainHost s := h.plainHost.ne (by decide)
    split_ifs
    · rfl
    · have h1 : splitOnce "%25" (plainHost s) = none := splitOnce_of_not_mem hpercent
      have h2 : splitOnce "%" (plainHost s) = none := splitOnce_of_not_mem hpercent
      simp only [List.findSome?, h1, h2, Option.getD_none]
  unfold normalizeHost normalizeDnsHostOrIpLiteral
  rw [h.trim_eq, hpart]
  exact hip

variable {p : Str}

theorem plain_of_stripPrefix {r : Str} (h : Plain s) (hr : stripPrefix p s = some r) : Plain r := by
  rw [stripPrefix_eq_some.mp hr] at h
  exact h.sublist (List.sublist_append_right p r)

theorem stripPrefix_plainHost (hp : ∀ d ∈ p, d.isAlpha = false) (h : stripPrefix p s = none) :
    stripPrefix p (plainHost s) = none := by
  have hlower : stripPrefix p (toAsciiLowercase s) = none := by rw [stripPrefix_lower hp, h]; rfl
  rw [stripPrefix_eq_none] at hlower ⊢
  exact fun hp => hlower (hp.trans (List.rdropWhile_prefix _ _))

variable {domain : Str}

theorem parseDomain_expand (h : Plain domain) {build : Str → DomainPattern} (hb : ∀ d, (build d).domain = d) :
    (parseDomain domain build).expand = (build domain).globs := by
  unfold parseDomain globs
  rw [h.trim_eq, hb]
  split_ifs <;> rfl

variable {pattern : Str}

/-- **The compiled reading.** -/
theorem expand_normalizePattern (h : Plain pattern) :
    expandDomainPattern (normalizePattern env pattern) = (readPattern pattern).globs := by
  unfold expandDomainPattern normalizePattern readPattern parse
  rw [h.trim_eq]
  by_cases hstar : pattern = "*"
  · subst hstar
    rfl
  · rw [if_neg hstar]
    cases h1 : stripPrefix "**." pattern with
    | some domain =>
      have hd := plain_of_stripPrefix h h1
      have hp : Plain ("**." ++ plainHost domain) :=
        Plain.append (by decide) hd.plainHost
      simp only [normalizeHost_of_plain hd, hp.trim_eq, stripPrefix_append]
      exact parseDomain_expand hd.plainHost fun _ => rfl
    | none =>
      cases h2 : stripPrefix "*." pattern with
      | some domain =>
        have hd := plain_of_stripPrefix h h2
        have hp : Plain ("*." ++ plainHost domain) :=
          Plain.append (by decide) hd.plainHost
        have hnone : stripPrefix "**." ("*." ++ plainHost domain) = none := rfl
        simp only [normalizeHost_of_plain hd, hp.trim_eq, hnone, stripPrefix_append]
        exact parseDomain_expand hd.plainHost fun _ => rfl
      | none =>
        simp only [normalizeHost_of_plain h, h.plainHost.trim_eq, stripPrefix_plainHost (not_isAlpha_of_any rfl) h1,
          stripPrefix_plainHost (not_isAlpha_of_any rfl) h2]
        unfold globs
        split_ifs with hempty
        · rfl
        · exact absurd hempty (by assumption)
        · exact absurd (by assumption) hempty
        · rfl

theorem parseDomainForConstraints_of_plain (hdoc : env.Documented fold) (h : Plain domain)
    (hread : parseDomainForConstraints env domain ≠ []) :
    normalizeDomain (parseDomainForConstraints env domain) = plainHost domain ∧ plainHost domain ≠ [] := by
  have hplain : Plain (trimEndDots domain) := h.sublist (List.rdropWhile_prefix _ _).sublist
  have hbracket : unbracketed (trimEndDots domain) = trimEndDots domain := by
    refine if_neg fun hb => hplain.ne (c := '[') (by decide) ?_
    exact List.mem_of_mem_head? hb.1
  have hhost : plainHost domain = toAsciiLowercase (trimEndDots domain) := trimEndDots_lower domain
  unfold parseDomainForConstraints at hread ⊢
  rw [h.trim_eq, hbracket] at hread ⊢
  split_ifs at hread ⊢ with hempty hwild
  · exact absurd rfl hread
  · rw [normalizeDomain, trimEndDots_idem, hhost]
    exact ⟨rfl, fun h => hempty (toAsciiLowercase_eq_nil.mp h)⟩
  · cases hparse : env.parseUrlHost (trimEndDots domain) with
    | none => rw [hparse] at hread; exact absurd rfl hread
    | some result =>
      rw [Option.getD_some, hdoc.parseUrlHost hplain hparse, normalizeDomain, trimEndDots_lower, trimEndDots_idem,
        toAsciiLowercase_idem, hhost]
      exact ⟨rfl, fun h => hempty (toAsciiLowercase_eq_nil.mp h)⟩

/-- **The reading for constraints.** -/
theorem parseForConstraints_of_plain (hdoc : env.Documented fold) (h : Plain pattern)
    (hread : (parseForConstraints env pattern).domain ≠ []) :
    (parseForConstraints env pattern).normalized = readPattern pattern ∧
      (readPattern pattern).domain ≠ [] := by
  unfold parseForConstraints readPattern at *
  rw [h.trim_eq] at hread ⊢
  by_cases hempty : pattern = []
  · rw [if_pos hempty] at hread
    exact absurd rfl hread
  · rw [if_neg hempty] at hread ⊢
    cases h1 : stripPrefix "**." pattern with
    | some domain =>
      simp only [h1] at hread ⊢
      obtain ⟨he, hne⟩ := parseDomainForConstraints_of_plain hdoc (plain_of_stripPrefix h h1) hread
      exact ⟨congrArg apexAndSubdomains he, hne⟩
    | none =>
      cases h2 : stripPrefix "*." pattern with
      | some domain =>
        simp only [h1, h2] at hread ⊢
        obtain ⟨he, hne⟩ := parseDomainForConstraints_of_plain hdoc (plain_of_stripPrefix h h2) hread
        exact ⟨congrArg subdomainsOnly he, hne⟩
      | none =>
        simp only [h1, h2] at hread ⊢
        obtain ⟨he, hne⟩ := parseDomainForConstraints_of_plain hdoc h hread
        exact ⟨congrArg exact he, hne⟩

/-! ### Patterns that cover others -/

/-- The domain itself is among the hosts. -/
def DomainPattern.hasApex : DomainPattern → Bool
  | subdomainsOnly _ => false
  | _ => true

def DomainPattern.hasSubdomains : DomainPattern → Bool
  | exact _ => false
  | _ => true

/-- `allows` on normalised domains: the same domain, or a subdomain of it. -/
def DomainPattern.Covers (managed candidate : DomainPattern) : Prop :=
  (candidate.hasSubdomains → managed.hasSubdomains) ∧
    (candidate.domain = managed.domain ∧ (candidate.hasApex → managed.hasApex) ∨
      managed.hasSubdomains ∧ '.' :: managed.domain <:+ candidate.domain)

variable {glob : Str}

theorem mem_expand {pattern : DomainPattern} : glob ∈ pattern.expand ↔
    pattern.hasApex ∧ glob = pattern.domain ∨
      pattern.hasSubdomains ∧ glob = "?*." ++ pattern.domain := by
  cases pattern <;> simp [expand, hasApex, hasSubdomains,
    domain]

variable {child parent : Str}

theorem domain_normalized (pattern : DomainPattern) : pattern.normalized.domain = normalizeDomain pattern.domain := by
  cases pattern <;> rfl

theorem covers_of_subdomainOrEqual {managed candidate : DomainPattern} (hm : managed.normalized.hasSubdomains)
    (ha : candidate.normalized.hasApex → managed.normalized.hasApex)
    (h : isSubdomainOrEqual candidate.domain managed.domain) :
    managed.normalized.Covers candidate.normalized := by
  refine ⟨fun _ => hm, ?_⟩
  rw [domain_normalized, domain_normalized]
  rw [isSubdomainOrEqual, Bool.or_eq_true, decide_eq_true_eq, List.isSuffixOf_iff_suffix] at h
  exact h.imp (fun h => ⟨h, ha⟩) fun h => ⟨hm, h⟩

theorem covers_of_strictSubdomain {managed candidate : DomainPattern} (hm : managed.normalized.hasSubdomains)
    (h : isStrictSubdomain candidate.domain managed.domain) :
    managed.normalized.Covers candidate.normalized := by
  refine ⟨fun _ => hm, .inr ⟨hm, ?_⟩⟩
  rw [domain_normalized, domain_normalized]
  simp only [isStrictSubdomain, Bool.and_eq_true, List.isSuffixOf_iff_suffix] at h
  exact h.2

theorem covers_of_allows : ∀ {managed candidate : DomainPattern}, managed.allows candidate →
    managed.normalized.Covers candidate.normalized
  | .exact _, .exact _, h => ⟨fun h => h, .inl ⟨of_decide_eq_true h, fun h => h⟩⟩
  | .exact _, .subdomainsOnly _, h | .exact _, .apexAndSubdomains _, h => (nomatch h)
  | .subdomainsOnly _, .subdomainsOnly _, h => covers_of_subdomainOrEqual rfl (fun h => h) h
  | .subdomainsOnly _, .exact _, h | .subdomainsOnly _, .apexAndSubdomains _, h => covers_of_strictSubdomain rfl h
  | .apexAndSubdomains _, .exact _, h | .apexAndSubdomains _, .subdomainsOnly _, h
  | .apexAndSubdomains _, .apexAndSubdomains _, h => covers_of_subdomainOrEqual rfl (fun _ => rfl) h

theorem not_dot_suffix (s : Str) : ¬ ['.'] <:+ normalizeDomain s := by
  rw [normalizeDomain_eq]
  rintro ⟨t, ht⟩
  have hne : plainHost s ≠ [] := by
    rw [← ht]
    simp
  refine List.rdropWhile_last_not (· == '.') (toAsciiLowercase s) hne ?_
  have hlast : (plainHost s).getLast hne = '.' := by
    simp only [← ht, List.getLast_append_singleton]
  exact beq_iff_eq.mpr hlast

theorem domain_ne_nil_of_covers {managed candidate : DomainPattern}
    (h : managed.normalized.Covers candidate.normalized) (hc : candidate.normalized.domain ≠ []) :
    managed.domain ≠ [] := by
  intro hm
  obtain ⟨_, ⟨hd, _⟩ | ⟨_, hs⟩⟩ := h
  · rw [domain_normalized managed, hm] at hd
    exact hc hd
  · rw [domain_normalized managed, hm, domain_normalized candidate] at hs
    exact not_dot_suffix candidate.domain hs

/-! ### Hosts of covered patterns -/

/-- The first label of the domain can be empty: a dot comes first, or after stars. -/
def DomainPattern.MayStartWithDot : DomainPattern → Prop
  | exact domain => (domain.dropWhile (· == '*')).head? = some '.'
  | apexAndSubdomains domain => (domain.dropWhile (· == '*')).head? = some '.'
  | subdomainsOnly _ => False

instance (pattern : DomainPattern) : Decidable pattern.MayStartWithDot :=
  match pattern with
  | .exact _ | .apexAndSubdomains _ => inferInstanceAs (Decidable (_ = _))
  | .subdomainsOnly _ => inferInstanceAs (Decidable False)

theorem globTokens_append (s t : Str) : globTokens (s ++ t) = globTokens s ++ globTokens t := List.map_append

variable {host : Str}

theorem isMatch_subdomains : isMatch fold (globTokens ("?*." ++ domain)) host ↔
    ∃ u v, host = u ++ v ∧ u ≠ [] ∧ isMatch fold (globTokens ('.' :: domain)) v := by
  rw [show globTokens ("?*." ++ domain) = [.one, .many] ++ globTokens ('.' :: domain) from rfl, isMatch_append]
  simp only [isMatch_one_many]

theorem isMatch_subdomains_of_suffix (hs : '.' :: domain <:+ child)
    (h : isMatch fold (globTokens ("?*." ++ child)) host) :
    isMatch fold (globTokens ("?*." ++ domain)) host := by
  obtain ⟨w, rfl⟩ := hs
  obtain ⟨u, v, rfl, hu, hv⟩ := isMatch_subdomains.mp h
  rw [← List.cons_append, globTokens_append] at hv
  obtain ⟨v₁, v₂, rfl, _, hv₂⟩ := isMatch_append.mp hv
  refine isMatch_subdomains.mpr ⟨u ++ v₁, v₂, (List.append_assoc u v₁ v₂).symm, ?_, hv₂⟩
  exact List.append_ne_nil_of_left_ne_nil hu v₁

theorem isMatch_of_suffix (hs : '.' :: domain <:+ child)
    (hdot : (child.dropWhile (· == '*')).head? ≠ some '.') (h : isMatch fold (globTokens child) host) :
    isMatch fold (globTokens ("?*." ++ domain)) host := by
  obtain ⟨w, rfl⟩ := hs
  rw [globTokens_append] at h
  obtain ⟨u, v, rfl, hu, hv⟩ := isMatch_append.mp h
  refine isMatch_subdomains.mpr ⟨u, v, rfl, ?_, hv⟩
  rintro rfl
  -- only stars match nothing
  have hstars : ∀ c ∈ w, c = '*' := by
    intro c hc
    have := isMatch_nil_right.mp hu _ (List.mem_map_of_mem hc)
    split_ifs at this with _ hstar
    exact hstar
  apply hdot
  rw [List.dropWhile_append_of_pos fun c hc => beq_iff_eq.mpr (hstars c hc)]
  rfl

/-- **Covered patterns** match no other hosts, unless their first label can be empty. -/
theorem isMatch_of_covers {managed candidate : DomainPattern} (h : managed.Covers candidate)
    (hdot : ¬ candidate.MayStartWithDot) (hg : glob ∈ candidate.expand)
    (hm : isMatch fold (globTokens glob) host) :
    ∃ glob' ∈ managed.expand, isMatch fold (globTokens glob') host := by
  obtain ⟨hsub, ⟨hd, hapex⟩ | ⟨hs, hd⟩⟩ := h
  · -- the same domain: the same globs
    refine ⟨glob, mem_expand.mpr ?_, hm⟩
    rw [← hd]
    exact (mem_expand.mp hg).imp (And.imp_left hapex) (And.imp_left hsub)
  · refine ⟨"?*." ++ managed.domain, mem_expand.mpr (.inr ⟨hs, rfl⟩), ?_⟩
    obtain ⟨hapex, rfl⟩ | ⟨_, rfl⟩ := mem_expand.mp hg
    · refine isMatch_of_suffix hd ?_ hm
      cases candidate with
      | exact | apexAndSubdomains => exact hdot
      | subdomainsOnly domain => cases hapex
    · exact isMatch_subdomains_of_suffix hd hm

theorem mayStartWithDot_of_normalized {pattern : DomainPattern} (h : pattern.normalized.MayStartWithDot) :
    pattern.MayStartWithDot := by
  have key : ∀ {d : Str}, ((normalizeDomain d).dropWhile (· == '*')).head? = some '.' →
      (d.dropWhile (· == '*')).head? = some '.' := by
    intro d h
    obtain ⟨t, ht⟩ : trimEndDots d <+: d := List.rdropWhile_prefix _ _
    rw [normalizeDomain, dropWhile_lower (beq_toLower (by decide)), toAsciiLowercase, List.head?_map,
      Option.map_eq_some_iff] at h
    obtain ⟨c, hc, hdot⟩ := h
    have hc' : ((trimEndDots d).dropWhile (· == '*')).head? = some '.' := (toLower_eq_iff (by decide)).mp hdot ▸ hc
    obtain ⟨rest, hrest⟩ := List.head?_eq_some_iff.mp hc'
    rw [← ht, List.dropWhile_append, hrest]
    rfl
  cases pattern with
  | exact | apexAndSubdomains => exact key h
  | subdomainsOnly domain => exact h

theorem plain_readPattern (h : Plain pattern) : Plain (readPattern pattern).domain := by
  unfold readPattern
  split
  · next h1 => exact (plain_of_stripPrefix h h1).plainHost
  · split
    · next h2 => exact (plain_of_stripPrefix h h2).plainHost
    · exact h.plainHost

theorem patternMatches_iff (hdoc : env.Documented fold) (h : Plain pattern)
    (hne : (readPattern pattern).domain ≠ []) : PatternMatches env pattern host ↔
      ∃ glob ∈ (readPattern pattern).expand, isMatch fold (globTokens glob) host := by
  unfold PatternMatches
  rw [expand_normalizePattern h, globs, if_neg hne]
  refine exists_congr fun glob => and_congr_right fun hg => ?_
  have hglob : Plain glob := by
    obtain ⟨_, rfl⟩ | ⟨_, rfl⟩ := mem_expand.mp hg
    · exact plain_readPattern h
    · exact Plain.append (by decide) (plain_readPattern h)
  rw [hdoc.globIsMatch hglob]

/-- **Patterns that the constraints cannot read as they are compiled**: the host is rejected or missing, or
the first label can be empty. -/
def Misread (env : PolicyEnvironment) (pattern : Str) : Prop :=
  (parseForConstraints env pattern).domain = [] ∨
    (parseForConstraints env pattern).MayStartWithDot

instance (env : PolicyEnvironment) (pattern : Str) : Decidable (Misread env pattern) :=
  inferInstanceAs (Decidable (_ ∨ _))

/-- An allowed pattern matches no host that the managed one does not, unless it is misread. -/
theorem patternMatches_of_allows (hdoc : env.Documented fold) {managed candidate : Str} (hm : Plain managed)
    (hc : Plain candidate) (hread : ¬ Misread env candidate)
    (hallows : (parseForConstraints env managed).allows
      (parseForConstraints env candidate))
    (h : PatternMatches env candidate host) : PatternMatches env managed host := by
  have hcovers := covers_of_allows hallows
  obtain ⟨hce, hcd⟩ := parseForConstraints_of_plain hdoc hc fun h => hread (.inl h)
  obtain ⟨hme, hmd⟩ := parseForConstraints_of_plain hdoc hm
    (domain_ne_nil_of_covers hcovers (by rw [hce]; exact hcd))
  obtain ⟨glob, hg, hmatch⟩ := (patternMatches_iff hdoc hc hcd).mp h
  rw [hme, hce] at hcovers
  refine (patternMatches_iff hdoc hm hmd).mpr (isMatch_of_covers hcovers (fun hdot => hread (.inr ?_)) hg hmatch)
  exact mayStartWithDot_of_normalized (hce ▸ hdot)

theorem patternMatches_lower_congr (h : toAsciiLowercase s = toAsciiLowercase t) :
    PatternMatches env s host ↔ PatternMatches env t host := by
  unfold PatternMatches
  rw [← normalizePattern_lower s, h, normalizePattern_lower]

/-! ### Accepted configurations -/

section Accepted

variable {env : ConfigEnvironment} {fold : Char → Char} {constraints : NetworkProxyConstraints}
  {allowed denied managed : List Str}

variable {entry : Str}

theorem mem_lowercaseSet {entries : List Str} :
    toAsciiLowercase entry ∈ lowercaseSet entries ↔ ∃ e ∈ entries, toAsciiLowercase e = toAsciiLowercase entry :=
  List.mem_map

theorem mem_denied_of_validate (hm : constraints.deniedDomains = some managed)
    (h : validateDeniedDomains env denied constraints = .ok ()) (he : entry ∈ managed) :
    toAsciiLowercase entry ∈ lowercaseSet denied := by
  have hlower : toAsciiLowercase entry ∈ lowercaseSet managed := mem_lowercaseSet.mpr ⟨entry, he, rfl⟩
  unfold validateDeniedDomains at h
  simp only [hm] at h
  obtain ⟨_, h⟩ := andThen_eq_ok.mp h
  split at h
  · split_ifs at h with hsame
    simp only [sameSet, Bool.and_eq_true, List.all_eq_true, decide_eq_true_eq] at hsame
    exact hsame.2 _ hlower
  · split_ifs at h with hmissing
    by_contra hnot
    have : toAsciiLowercase entry ∈ (lowercaseSet managed).filter (· ∉ lowercaseSet denied) :=
      List.mem_filter.mpr ⟨hlower, decide_eq_true hnot⟩
    rw [hmissing] at this
    exact List.not_mem_nil this

/-- Without expansion, every allowed pattern is a managed one or allowed by one. -/
theorem allowed_of_validate (hm : constraints.allowedDomains = some managed)
    (hexp : constraints.allowlistExpansionEnabled ≠ some true)
    (h : validateAllowedDomains env allowed denied constraints = .ok ()) (he : entry ∈ allowed) :
    toAsciiLowercase entry ∈ lowercaseSet managed ∨ constraints.allowlistExpansionEnabled = none ∧
      ∃ m ∈ managed, (parseForConstraints env.toPolicyEnvironment m).allows
        (parseForConstraints env.toPolicyEnvironment entry) := by
  unfold validateAllowedDomains at h
  simp only [hm] at h
  obtain ⟨_, h⟩ := andThen_eq_ok.mp h
  split at h
  · next hsome => exact absurd hsome hexp
  · split_ifs at h with hsame
    simp only [sameSet, Bool.and_eq_true, List.all_eq_true, decide_eq_true_eq] at hsame
    exact .inl (List.mem_filter.mp (hsame.1 _ (mem_lowercaseSet.mpr ⟨entry, he, rfl⟩))).1
  · next hnone =>
      split_ifs at h with hinvalid
      refine .inr ⟨hnone, ?_⟩
      have := List.filter_eq_nil_iff.mp hinvalid entry he
      simpa using this

/-- **Managed constraints are not widened**: a host that the managed patterns deny is denied, and without
expansion of the allowlist a host that is allowed is allowed by the managed patterns. -/
structure Bounded (env : ConfigEnvironment) {β : Type} (state : ConfigState β) : Prop where
  denied : ∀ managed, state.constraints.deniedDomains = some managed → ∀ host,
    state.denySet.isMatch env.toPolicyEnvironment host = false →
      ¬ PatternsMatch env.toPolicyEnvironment managed host
  allowed : ∀ managed, state.constraints.allowedDomains = some managed →
    state.constraints.allowlistExpansionEnabled ≠ some true → ∀ host,
      state.allowSet.isMatch env.toPolicyEnvironment host →
        PatternsMatch env.toPolicyEnvironment managed host

/-- **Which accepted configurations stay within the constraints**: where each allowed pattern has to be
allowed by a managed one, those whose misread patterns match only hosts of the managed ones. -/
theorem bounded_iff {config : NetworkProxyConfig} {β : Type} {state : ConfigState β}
    (hdoc : env.toPolicyEnvironment.Documented fold)
    (hvalid : validatePolicyAgainstConstraints env config constraints = .ok ())
    (hbuild : buildConfigState env config constraints = .ok state)
    (hallowed : ∀ entry ∈ config.network.allowedDomains.getD [], Plain entry)
    (hmanaged : ∀ entry ∈ constraints.allowedDomains.getD [], Plain entry) :
    Bounded env state ↔
      ∀ managed, constraints.allowedDomains = some managed → constraints.allowlistExpansionEnabled = none →
        ∀ entry ∈ config.network.allowedDomains.getD [], Misread env.toPolicyEnvironment entry → ∀ host,
          PatternMatches env.toPolicyEnvironment entry host →
            PatternsMatch env.toPolicyEnvironment managed host := by
  obtain ⟨hdeny, hallow, hstate⟩ := buildConfigState_eq_ok hbuild
  have hcons : state.constraints = constraints := by rw [hstate]
  obtain ⟨_, _, _, _, _, _, _, hvallowed, hvdenied, _⟩ := validate_eq_ok_iff.mp hvalid
  constructor
  · intro h managed hm hnone entry he _ host hmatch
    refine h.allowed managed (hcons ▸ hm) (by rw [hcons, hnone]; exact nofun) host ?_
    exact (isMatch_of_compile hallow host).mpr ⟨entry, he, hmatch⟩
  · intro hmisread
    constructor
    · rintro managed hm host hno ⟨pattern, hp, hmatch⟩
      rw [hcons] at hm
      obtain ⟨entry, he, hlower⟩ := mem_lowercaseSet.mp (mem_denied_of_validate hm hvdenied hp)
      have : state.denySet.isMatch env.toPolicyEnvironment host = true :=
        (isMatch_of_compile hdeny host).mpr ⟨entry, he, (patternMatches_lower_congr hlower).mpr hmatch⟩
      rw [this] at hno
      cases hno
    · intro managed hm hexp host hmatch
      rw [hcons] at hm hexp
      obtain ⟨entry, he, hmatch⟩ := (isMatch_of_compile hallow host).mp hmatch
      obtain hlower | ⟨hnone, m, hmem, hallows⟩ := allowed_of_validate hm hexp hvallowed he
      · obtain ⟨m, hmem, hlower⟩ := mem_lowercaseSet.mp hlower
        exact ⟨m, hmem, (patternMatches_lower_congr hlower).mpr hmatch⟩
      · by_cases hread : Misread env.toPolicyEnvironment entry
        · exact hmisread managed hm hnone entry he hread host hmatch
        · have hplain : Plain m := hmanaged m (by rw [hm]; exact hmem)
          exact ⟨m, hmem, patternMatches_of_allows hdoc hplain (hallowed entry he) hread hallows hmatch⟩

end Accepted

/-! ### A host that `url` rejects -/

/-- ASCII globs, and hosts that end in a number as addresses with no part above 255. -/
def asciiEnvironment : ConfigEnvironment where
  isIpAddr _ := false
  parseUrlHost host :=
    if host.getLast?.any Char.isDigit && (splitOn '.' host).any fun part =>
        255 < part.foldl (fun n c => 10 * n + (c.toNat - '0'.toNat)) 0 then none
    else some (toAsciiLowercase host)
  buildGlob _ := .ok ()
  buildGlobSet _ := .ok ()
  globIsMatch glob host := isMatch Char.toLower (globTokens glob) host
  debugStr s := s
  debugVec l := l.flatten
  debugSet l := l.flatten
  isAbsolute path := path.head? = some '/'
  fromAbsolutePath _ := .ok ()
  newMitmState _ := .ok ()

theorem documented_asciiEnvironment : asciiEnvironment.toPolicyEnvironment.Documented Char.toLower where
  parseUrlHost := by
    intro host result _ h
    simp only [asciiEnvironment] at h
    split_ifs at h
    exact (Option.some.inj h).symm
  globIsMatch _ _ := rfl

/-- Default settings with one allowed pattern. -/
def allowing (pattern : Str) : NetworkProxyConfig :=
  ⟨{ NetworkProxySettings.default with domains := some ⟨[⟨pattern, .allow⟩]⟩ }⟩

/-- Constraints with one allowed pattern. -/
def managedAllowing (pattern : Str) : NetworkProxyConstraints :=
  { NetworkProxyConstraints.default with allowedDomains := some [pattern] }

/-- The state that is built for one allowed pattern. -/
def allowingState (pattern managed : Str) : ConfigState Unit :=
  ⟨allowing pattern, ⟨[pattern]⟩, ⟨[]⟩, none, managedAllowing managed, [], 0⟩

theorem bounded_api_example : Bounded asciiEnvironment
    (allowingState "api.example.com" "*.example.com") := by
  have hvalid : validatePolicyAgainstConstraints asciiEnvironment (allowing "api.example.com")
      (managedAllowing "*.example.com") = .ok () := by decide +kernel
  have hread : ∀ entry ∈ (allowing "api.example.com").network.allowedDomains.getD [],
      ¬ Misread asciiEnvironment.toPolicyEnvironment entry := by decide +kernel
  refine (bounded_iff documented_asciiEnvironment hvalid ?_ ?_ ?_).mpr fun _ _ _ entry he h => absurd h (hread entry he)
  · decide +kernel
  · decide +kernel
  · decide +kernel

/-- Two hosts that are no addresses: one is managed, the other one is accepted and allowed. -/
theorem not_bounded_of_rejected_hosts :
    validatePolicyAgainstConstraints asciiEnvironment (allowing "300.0.0.2")
      (managedAllowing "300.0.0.1") = .ok () ∧
    buildConfigState asciiEnvironment (allowing "300.0.0.2") (managedAllowing "300.0.0.1") =
      .ok (allowingState "300.0.0.2" "300.0.0.1") ∧
    ¬ Bounded asciiEnvironment (allowingState "300.0.0.2" "300.0.0.1") := by
  refine ⟨by decide +kernel, by decide +kernel, fun h => ?_⟩
  have hno : ∀ glob ∈ expandDomainPattern (normalizePattern asciiEnvironment.toPolicyEnvironment "300.0.0.1"),
      asciiEnvironment.globIsMatch glob "300.0.0.2" = false := by decide +kernel
  obtain ⟨pattern, hp, glob, hg, hm⟩ := h.allowed _ rfl (by decide) "300.0.0.2" (by decide +kernel)
  obtain rfl := List.mem_singleton.mp hp
  rw [hno glob hg] at hm
  cases hm

end OpenAgere.Network
