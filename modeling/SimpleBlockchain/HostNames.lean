import SimpleBlockchain.Responses

/-!
# Valid hosts

The plugin keeps its aliases and listen addresses as they were written, and looks up
a Host header only after it has given it a port. A configured name without a port
is stored but never looked up.
-/

namespace SimpleBlockchain

/-! ## The configuration -/

/-- The options that decide which hosts are valid and which bodies are read. -/
structure HttpOptions where
  maxBodySize : UInt32
  httpValidateHost : Bool
  httpAlias : List Str
  httpServerAddress : Option Str
  httpsServerAddress : Option Str
  httpsCertificateChainFile : Option Str
  httpsPrivateKeyFile : Option Str

/-- The port of the first endpoint that `tcp::resolver` finds for a host and a port. -/
abbrev Resolver := Str → Str → Option UInt16

/-- What `substr` throws for a start beyond the end of the string. -/
def outOfRange (pos size : ℕ) : Exn :=
  ⟨.exception, "basic_string::substr: __pos (which is " ++ toString pos ++
    ") > this->size() (which is " ++ toString size ++ ")"⟩

/-- A listen address up to its first colon, and after it. -/
def splitAddress (lipstr : Str) : Except Exn (Str × Str) :=
  let host := lipstr.takeWhile (· ≠ ':')
  if lipstr.length < host.length + 1 then .error (outOfRange (host.length + 1) lipstr.length)
  else .ok (host, lipstr.drop (host.length + 1))

def addAliasesForEndpoint (validHosts : List Str) (ep : UInt16) (host port : Str) : List Str :=
  let resolvedPortStr := decimal ep.toNat
  validHosts ++ [host ++ ':' :: port, host ++ ':' :: resolvedPortStr]

def given (option : Option Str) : Option Str := option.filter (· ≠ [])

/-- The endpoint of a listen address, if there is one and it resolves, and the valid hosts
with its names. -/
def listenOn (resolve : Resolver) (address : Option Str) (validHosts : List Str) :
    Except Exn (Option UInt16 × List Str) :=
  match given address with
  | none => .ok (none, validHosts)
  | some lipstr => do
      let (host, port) ← splitAddress lipstr
      match resolve (cStr host) (cStr port) with
      | some ep => .ok (some ep, addAliasesForEndpoint validHosts ep host port)
      | none => .ok (none, validHosts)

/-- What the plugin has learned from its options. The limit of a body comes last, after the
places where the function can end. -/
structure HttpInit where
  maxBodySize : Option UInt32
  validateHost : Bool
  listenEndpoint : Option UInt16
  httpsListenEndpoint : Option UInt16
  validHosts : List Str

namespace HttpPlugin

/-- `plugin_initialize`. -/
def pluginInitialize (resolve : Resolver) (options : HttpOptions) : Except Exn HttpInit := do
  let (listenEndpoint, validHosts) ← listenOn resolve options.httpServerAddress options.httpAlias
  if given options.httpsServerAddress ≠ none ∧ (given options.httpsCertificateChainFile = none ∨
      given options.httpsPrivateKeyFile = none) then
    -- an https address without a certificate or a key ends the function early
    .ok ⟨none, options.httpValidateHost, listenEndpoint, none, validHosts⟩
  else do
    let (httpsListenEndpoint, validHosts) ←
      listenOn resolve options.httpsServerAddress validHosts
    .ok ⟨some options.maxBodySize, options.httpValidateHost, listenEndpoint, httpsListenEndpoint,
      validHosts⟩

def configured (H : HttpPlugin) (init : HttpInit) : HttpPlugin :=
  { H with
    maxBodySize := (init.maxBodySize.map UInt32.toUInt64).getD H.maxBodySize
    validateHost := init.validateHost
    validHosts := init.validHosts }

end HttpPlugin

/-! ## Configured names -/

section Configured

variable (resolve : Resolver) (options : HttpOptions)

/-- The host and the port of a listen address, as they are written, and the number of the
port that it resolves to. -/
def Resolves (lipstr host port : Str) (ep : UInt16) : Prop :=
  lipstr = host ++ ':' :: port ∧ ':' ∉ host ∧ resolve (cStr host) (cStr port) = some ep

/-- An https address counts only with a certificate and a key. -/
inductive Listens : Str → Str → UInt16 → Prop
  | http {lipstr host port ep} : options.httpServerAddress = some lipstr →
      Resolves resolve lipstr host port ep → Listens host port ep
  | https {lipstr host port ep} : options.httpsServerAddress = some lipstr →
      given options.httpsCertificateChainFile ≠ none → given options.httpsPrivateKeyFile ≠ none →
      Resolves resolve lipstr host port ep → Listens host port ep

/-- An alias, a listen address, or a listen address with the number of its port. -/
inductive Configured : Str → Prop
  | alias {name} : name ∈ options.httpAlias → Configured name
  | address {host port ep} : Listens resolve options host port ep → Configured (host ++ ':' :: port)
  | resolved {host port ep} : Listens resolve options host port ep →
      Configured (host ++ ':' :: decimal ep.toNat)

end Configured

variable {resolve : Resolver} {options : HttpOptions}

theorem splitAddress_append {host port : Str} (h : ':' ∉ host) :
    splitAddress (host ++ ':' :: port) = .ok (host, port) := by
  have htake : (host ++ ':' :: port).takeWhile (· ≠ ':') = host := by
    rw [List.takeWhile_append_of_pos, List.takeWhile_cons_of_neg (by simp), List.append_nil]
    intro c hc
    rw [decide_eq_true_iff]
    rintro rfl
    exact h hc
  have hdrop : (host ++ ':' :: port).drop (host.length + 1) = port := by
    simp
  rw [splitAddress, htake, hdrop, if_neg (by simp)]

theorem splitAddress_of_not_mem {lipstr : Str} (h : ':' ∉ lipstr) :
    splitAddress lipstr = .error (outOfRange (lipstr.length + 1) lipstr.length) := by
  have htake : lipstr.takeWhile (· ≠ ':') = lipstr := by
    apply (takeWhile_of_forall fun c hc => ?_).1
    rw [decide_eq_true_iff]
    rintro rfl
    exact h hc
  rw [splitAddress, htake, if_pos (Nat.lt_succ_self _)]

theorem splitAddress_eq_ok {lipstr host port : Str} (h : splitAddress lipstr = .ok (host, port)) :
    lipstr = host ++ ':' :: port ∧ ':' ∉ host := by
  by_cases hcolon : ':' ∈ lipstr
  · obtain ⟨host', port', rfl, hhost⟩ := List.eq_append_cons_of_mem hcolon
    rw [splitAddress_append hhost] at h
    cases h
    exact ⟨rfl, hhost⟩
  · rw [splitAddress_of_not_mem hcolon] at h
    cases h

theorem Resolves.split {lipstr host port : Str} {ep : UInt16}
    (h : Resolves resolve lipstr host port ep) : splitAddress lipstr = .ok (host, port) := by
  obtain ⟨rfl, hhost, _⟩ := h
  exact splitAddress_append hhost

def NamedBy (address : Option Str) (resolve : Resolver) (name : Str) : Prop :=
  ∃ lipstr host port ep, address = some lipstr ∧ Resolves resolve lipstr host port ep ∧
    (name = host ++ ':' :: port ∨ name = host ++ ':' :: decimal ep.toNat)

theorem namedBy_of_given_none {address : Option Str} (h : given address = none) (name : Str) :
    ¬ NamedBy address resolve name := by
  rintro ⟨lipstr, host, port, ep, rfl, ⟨rfl, _, _⟩, _⟩
  simp [given] at h

theorem namedBy_some_iff {lipstr host port name : Str}
    (hsplit : splitAddress lipstr = .ok (host, port)) : NamedBy (some lipstr) resolve name ↔
      ∃ ep, resolve (cStr host) (cStr port) = some ep ∧
        (name = host ++ ':' :: port ∨ name = host ++ ':' :: decimal ep.toNat) := by
  constructor
  · intro h
    obtain ⟨lipstr', host', port', ep, hsome, hres, hname⟩ := h
    cases hsome
    have hsame := hres.split
    rw [hsplit, Except.ok.injEq, Prod.mk.injEq] at hsame
    obtain ⟨rfl, rfl⟩ := hsame
    exact ⟨ep, hres.2.2, hname⟩
  · rintro ⟨ep, hep, hname⟩
    obtain ⟨hlipstr, hhost⟩ := splitAddress_eq_ok hsplit
    exact ⟨lipstr, host, port, ep, rfl, ⟨hlipstr, hhost, hep⟩, hname⟩

theorem mem_listenOn {address : Option Str} {name : Str} {hosts hosts' : List Str}
    {ep : Option UInt16} (h : listenOn resolve address hosts = .ok (ep, hosts')) :
    name ∈ hosts' ↔ name ∈ hosts ∨ NamedBy address resolve name := by
  unfold listenOn at h
  cases hgiven : given address with
  | none =>
      rw [hgiven] at h
      cases h
      exact (or_iff_left (namedBy_of_given_none hgiven name)).symm
  | some lipstr =>
      have haddress : address = some lipstr := (Option.filter_eq_some_iff.1 hgiven).1
      rw [hgiven] at h
      obtain ⟨⟨host, port⟩, hsplit, h⟩ := bind_eq_ok.1 h
      rw [haddress, namedBy_some_iff hsplit]
      dsimp only at h
      cases hresolve : resolve (cStr host) (cStr port) with
      | none =>
          rw [hresolve] at h
          cases h
          simp
      | some ep =>
          rw [hresolve] at h
          cases h
          rw [addAliasesForEndpoint, List.mem_append, List.mem_cons, List.mem_singleton]
          simp

theorem configured_iff (name : Str) : Configured resolve options name ↔
    (name ∈ options.httpAlias ∨ NamedBy options.httpServerAddress resolve name) ∨
      given options.httpsCertificateChainFile ≠ none ∧ given options.httpsPrivateKeyFile ≠ none ∧
        NamedBy options.httpsServerAddress resolve name := by
  constructor
  · rintro (halias | hlistens | hlistens)
    · exact Or.inl (Or.inl halias)
    · cases hlistens with
      | http haddress hres =>
          exact Or.inl (Or.inr ⟨_, _, _, _, haddress, hres, Or.inl rfl⟩)
      | https haddress hcert hkey hres =>
          exact Or.inr ⟨hcert, hkey, _, _, _, _, haddress, hres, Or.inl rfl⟩
    · cases hlistens with
      | http haddress hres =>
          exact Or.inl (Or.inr ⟨_, _, _, _, haddress, hres, Or.inr rfl⟩)
      | https haddress hcert hkey hres =>
          exact Or.inr ⟨hcert, hkey, _, _, _, _, haddress, hres, Or.inr rfl⟩
  · rintro ((halias | ⟨_, _, _, _, haddress, hres, rfl | rfl⟩) |
      ⟨hcert, hkey, _, _, _, _, haddress, hres, rfl | rfl⟩)
    · exact .alias halias
    · exact .address (.http haddress hres)
    · exact .resolved (.http haddress hres)
    · exact .address (.https haddress hcert hkey hres)
    · exact .resolved (.https haddress hcert hkey hres)

theorem mem_validHosts_iff {init : HttpInit}
    (h : HttpPlugin.pluginInitialize resolve options = .ok init) (name : Str) :
    name ∈ init.validHosts ↔ Configured resolve options name := by
  rw [configured_iff]
  obtain ⟨⟨ep, hosts⟩, hhttp, h⟩ := bind_eq_ok.1 h
  rw [← mem_listenOn hhttp]
  dsimp only at h
  split at h
  next hearly =>
    cases h
    refine (or_iff_left ?_).symm
    rintro ⟨hcert, hkey, _⟩
    exact hearly.2.elim hcert hkey
  next hlate =>
    obtain ⟨⟨ep', hosts'⟩, hhttps, h⟩ := bind_eq_ok.1 h
    cases h
    rw [mem_listenOn hhttps]
    apply or_congr_right
    constructor
    · intro hnamed
      have hgiven : given options.httpsServerAddress ≠ none :=
        fun hnone => namedBy_of_given_none hnone name hnamed
      rw [not_and_or, not_or] at hlate
      obtain ⟨hcert, hkey⟩ := hlate.resolve_left (not_not.2 hgiven)
      exact ⟨hcert, hkey, hnamed⟩
    · exact fun hnamed => hnamed.2.2

theorem validateHost_pluginInitialize {init : HttpInit}
    (h : HttpPlugin.pluginInitialize resolve options = .ok init) :
    init.validateHost = options.httpValidateHost := by
  obtain ⟨⟨ep, hosts⟩, _, h⟩ := bind_eq_ok.1 h
  dsimp only at h
  split at h
  · cases h
    rfl
  · obtain ⟨⟨ep', hosts'⟩, _, h⟩ := bind_eq_ok.1 h
    cases h
    rfl

/-! ## The port of a header -/

def withDefaultPort (secure : Bool) (host : Str) : Str :=
  host ++ ':' :: decimal (if secure then 443 else 80)

theorem hasPort_append {host port : Str} (hne : port ≠ []) (hdigits : ∀ c ∈ port, c.isDigit) :
    hasPort (host ++ ':' :: port) = true ↔ ∃ c, host.getLast? = some c ∧ c ≠ ':' := by
  have hreverse : (host ++ ':' :: port).reverse = port.reverse ++ ':' :: host.reverse := by
    rw [List.reverse_append, List.reverse_cons, List.append_assoc, List.singleton_append]
  have hpos : ∀ c ∈ port.reverse, c.isDigit := fun c hc => hdigits c (List.mem_reverse.1 hc)
  have htake : (host ++ ':' :: port).reverse.takeWhile Char.isDigit = port.reverse := by
    rw [hreverse, List.takeWhile_append_of_pos hpos, List.takeWhile_cons_of_neg (by decide),
      List.append_nil]
  have hdrop : (host ++ ':' :: port).reverse.dropWhile Char.isDigit = ':' :: host.reverse := by
    rw [hreverse, List.dropWhile_append_of_pos hpos, List.dropWhile_cons_of_neg (by decide)]
  unfold hasPort
  rw [htake, hdrop]
  rcases List.eq_nil_or_concat host with rfl | ⟨start, c, rfl⟩
  · simp
  · simp [hne]

theorem hasPort_withDefaultPort {secure : Bool} {host : Str} :
    hasPort (withDefaultPort secure host) = true ↔ ∃ c, host.getLast? = some c ∧ c ≠ ':' :=
  hasPort_append Nat.toDigits_ne_nil decimal_isDigit

/-! ## Accepted names -/

/-- A name that is found when it is looked up: a configured one, or that of the endpoint. -/
def Found (resolve : Resolver) (options : HttpOptions) (endpoint name : Str) : Prop :=
  Configured resolve options name ∨ name = endpoint

theorem hostPortIsValid_iff (H : HttpPlugin) {init : HttpInit}
    (hinit : HttpPlugin.pluginInitialize resolve options = .ok init)
    (hvalidate : init.validateHost = true) (name endpoint : Str) :
    (H.configured init).hostPortIsValid name endpoint = true ↔
      Found resolve options endpoint name := by
  unfold HttpPlugin.hostPortIsValid HttpPlugin.configured Found
  rw [← mem_validHosts_iff hinit]
  simp [hvalidate, or_comm]

theorem hostIsValid_iff (H : HttpPlugin) {init : HttpInit}
    (hinit : HttpPlugin.pluginInitialize resolve options = .ok init)
    (hvalidate : init.validateHost = true) (host endpoint : Str) (secure : Bool) :
    (H.configured init).hostIsValid host endpoint secure = true ↔
      if hasPort host then Found resolve options endpoint host
      else Found resolve options endpoint (withDefaultPort secure host) := by
  have hlookup := hostPortIsValid_iff H hinit hvalidate
  unfold HttpPlugin.hostIsValid
  rw [if_neg (by simp [HttpPlugin.configured, hvalidate])]
  split
  · exact hlookup host endpoint
  · exact hlookup (withDefaultPort secure host) endpoint

/-- A configured name is accepted only with a port, or if its form with the default port
is a name as well. A header stands for that form unless nothing or a colon ends it. -/
theorem configured_names_accepted_iff (H : HttpPlugin) {init : HttpInit}
    (hinit : HttpPlugin.pluginInitialize resolve options = .ok init)
    (hvalidate : options.httpValidateHost = true) (endpoint : Str) (secure : Bool) :
    (∀ name, Configured resolve options name →
      ((H.configured init).hostIsValid name endpoint secure = true ↔
        hasPort name = true ∨ Found resolve options endpoint (withDefaultPort secure name))) ∧
    ∀ host, hasPort host = false →
      (((H.configured init).hostIsValid host endpoint secure =
          (H.configured init).hostIsValid (withDefaultPort secure host) endpoint secure) ↔
        (∃ c, host.getLast? = some c ∧ c ≠ ':') ∨
          (Found resolve options endpoint (withDefaultPort secure host) ↔
            Found resolve options endpoint
              (withDefaultPort secure (withDefaultPort secure host)))) := by
  have hvalid := fun host => hostIsValid_iff H hinit
    (validateHost_pluginInitialize hinit ▸ hvalidate) host endpoint secure
  constructor
  · intro name hname
    rw [hvalid name]
    by_cases hport : hasPort name = true
    · rw [if_pos hport]
      exact iff_of_true (Or.inl hname) (Or.inl hport)
    · rw [if_neg hport]
      exact (or_iff_right hport).symm
  · intro host hport
    rw [Bool.eq_iff_iff, hvalid host, hvalid (withDefaultPort secure host),
      if_neg (by rw [hport]; exact Bool.false_ne_true)]
    by_cases hdefault : hasPort (withDefaultPort secure host) = true
    · rw [if_pos hdefault]
      exact iff_of_true Iff.rfl (Or.inl (hasPort_withDefaultPort.1 hdefault))
    · rw [if_neg hdefault]
      exact (or_iff_right fun hlast => hdefault (hasPort_withDefaultPort.2 hlast)).symm

namespace Sample

def httpOptions : HttpOptions where
  maxBodySize := 1024 * 1024
  httpValidateHost := true
  httpAlias := ["example.com".toList]
  httpServerAddress := some ("127.0.0.1".toList ++ ':' :: "8888".toList)
  httpsServerAddress := none
  httpsCertificateChainFile := none
  httpsPrivateKeyFile := none

/-- Resolves the names of the node itself, with a port that is a number. -/
def resolver : Resolver := fun host port =>
  if (host = "127.0.0.1".toList ∨ host = "localhost".toList) ∧ port ≠ [] ∧
      port.all Char.isDigit then
    some (UInt16.ofNat (Nat.ofDigitChars 10 port 0))
  else none

def httpInit : HttpInit where
  maxBodySize := some (1024 * 1024)
  validateHost := true
  listenEndpoint := some 8888
  httpsListenEndpoint := none
  validHosts := ["example.com".toList, "127.0.0.1:8888".toList, "127.0.0.1:8888".toList]

end Sample

theorem Sample.pluginInitialize_httpOptions :
    HttpPlugin.pluginInitialize Sample.resolver Sample.httpOptions = .ok Sample.httpInit := by
  rfl

theorem sample_names_accepted_iff :
    ((Sample.http.configured Sample.httpInit).hostIsValid "example.com".toList
        "127.0.0.1:8888".toList false = true ↔
      hasPort "example.com".toList = true ∨ Found Sample.resolver Sample.httpOptions
        "127.0.0.1:8888".toList (withDefaultPort false "example.com".toList)) ∧
    ((Sample.http.configured Sample.httpInit).hostIsValid "localhost:".toList
          "127.0.0.1:8888".toList false =
        (Sample.http.configured Sample.httpInit).hostIsValid
          (withDefaultPort false "localhost:".toList) "127.0.0.1:8888".toList false ↔
      (∃ c, "localhost:".toList.getLast? = some c ∧ c ≠ ':') ∨
        (Found Sample.resolver Sample.httpOptions "127.0.0.1:8888".toList
            (withDefaultPort false "localhost:".toList) ↔
          Found Sample.resolver Sample.httpOptions "127.0.0.1:8888".toList
            (withDefaultPort false (withDefaultPort false "localhost:".toList)))) := by
  obtain ⟨hnames, hheaders⟩ := configured_names_accepted_iff Sample.http
    Sample.pluginInitialize_httpOptions rfl "127.0.0.1:8888".toList false
  exact ⟨hnames _ (.alias (List.mem_singleton.2 rfl)), hheaders _ (by decide)⟩

/-- The alias without a port is not a host of the node. -/
theorem sample_alias_refused :
    HttpPlugin.pluginInitialize Sample.resolver Sample.httpOptions = .ok Sample.httpInit ∧
    Sample.httpInit.validateHost = true ∧
    Configured Sample.resolver Sample.httpOptions "example.com".toList ∧
    (Sample.http.configured Sample.httpInit).hostIsValid "example.com".toList
      "127.0.0.1:8888".toList false = false := by
  refine ⟨Sample.pluginInitialize_httpOptions, rfl, .alias (List.mem_singleton.2 rfl), ?_⟩
  decide

end SimpleBlockchain
