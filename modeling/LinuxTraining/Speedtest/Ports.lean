import LinuxTraining.Speedtest.WorkerTargets

/-!
The port of a server. `get_ipv4_addr` cuts the port off the host and asks for the
service "http", whatever port it has cut off.
-/
namespace LinuxTraining.Speedtest
open CString Stdio Execution

inductive AddressFamily where
  | inet
  | inet6
  deriving DecidableEq

structure AddrInfo where
  ai_family : AddressFamily
  ai_addr : SockAddr

/-- `getaddrinfo` of a host and a service; `none`: it fails. -/
abbrev Resolver := Text → Text → Option (List AddrInfo)

def getIpv4Addr (getaddrinfo : Resolver) (domain_name : Text) : Option SockAddr :=
  match getaddrinfo (cutPort domain_name) "http".toList with
  | none => none
  | some addrinfo => (addrinfo.find? fun p => p.ai_family = .inet).map AddrInfo.ai_addr

def servicePort (service : Text) : Option Nat :=
  if service = "http".toList then some 80
  else if service ≠ [] ∧ service.all Char.isDigit then some (Nat.ofDigitChars 10 service 0)
  else none

/-- The addresses found have the port of the service that was asked for. -/
def ReturnsServicePort (getaddrinfo : Resolver) : Prop :=
  ∀ name service port addrinfo, servicePort service = some port →
    getaddrinfo name service = some addrinfo → ∀ p ∈ addrinfo, p.ai_addr.port = port

def hostPort (H : Text) : Option Text → Text
  | none => H
  | some P => H ++ ':' :: P

def serverUrl (H : Text) (P : Option Text) (rest : Text) : Text :=
  scheme ++ (hostPort H P ++ '/' :: rest)

def namedPort : Option Text → Nat
  | none => 80
  | some P => Nat.ofDigitChars 10 P 0

/-- Host names have no separator of a url in them, and ports are digits. -/
structure HostNamed (H : Text) (P : Option Text) : Prop where
  named : H ≠ []
  plain : ∀ c ∈ H, c ≠ ':' ∧ c ≠ '/'
  digits : ∀ digits ∈ P, ∀ c ∈ digits, c.isDigit = true

/-- The server of slot `i` is recorded, probed and, when the phases use it, copied to the
workers of all runs with one port. -/
structure PortKept (servers : Servers) (outcomes : Outcomes) (i : Fin nearestServersNum)
    (port : Nat) : Prop where
  recorded : ((getBestServer servers outcomes).1 i).servinfo.port = port
  probed : ∀ address, (outcomes i).resolved = some address → address.port = port
  copied : ∀ thread_nums as s, i = 1 →
    run (step (runProc servers outcomes thread_nums)) start as = some s →
    ∀ w ∈ s.workers, ∀ address, w.servinfo = some address → address.port = port

/-- The port is that of the service "http". A host that mentions `upload.` is not the one
that is asked for: if the other one is not found, the record keeps the port it had. -/
def AsksNamedPort (getaddrinfo : Resolver) (server : ServerData) (H : Text)
    (P : Option Text) : Prop :=
  if mentions "upload." (hostPort H P) ∧
      getIpv4Addr getaddrinfo (probeHost server.url) = none then
    server.servinfo.port = namedPort P
  else namedPort P = 80

variable {getaddrinfo : Resolver} {servers : Servers} {outcomes : Outcomes}
  {i : Fin nearestServersNum} {H rest : Text} {P : Option Text}

theorem getIpv4Addr_port (service : ReturnsServicePort getaddrinfo) {name : Text}
    {address : SockAddr} (h : getIpv4Addr getaddrinfo name = some address) : address.port = 80 := by
  unfold getIpv4Addr at h
  cases hfound : getaddrinfo (cutPort name) "http".toList with
  | none =>
      rw [hfound] at h
      cases h
  | some addrinfo =>
      rw [hfound] at h
      obtain ⟨p, hp, rfl⟩ := Option.map_eq_some_iff.mp h
      exact service _ _ 80 addrinfo (if_pos rfl) hfound p (List.mem_of_find?_eq_some hp)

theorem HostNamed.slash (named : HostNamed H P) : '/' ∉ hostPort H P := by
  intro hslash
  cases P with
  | none => exact (named.plain _ hslash).2 rfl
  | some digits =>
      cases List.mem_append.mp hslash with
      | inl hhost => exact (named.plain _ hhost).2 rfl
      | inr hport =>
          cases hport with
          | tail _ hdigit =>
              have := named.digits digits rfl _ hdigit
              cases this

theorem HostNamed.ne_nil (named : HostNamed H P) : hostPort H P ≠ [] := by
  cases P with
  | none => exact named.named
  | some digits => exact fun hnil => named.named (List.append_eq_nil_iff.mp hnil).1

theorem HostNamed.cutPort_eq (named : HostNamed H P) : cutPort (hostPort H P) = H := by
  have hall : ∀ c ∈ H, decide (c ≠ ':') = true := fun c hc => decide_eq_true (named.plain c hc).1
  unfold cutPort
  cases P with
  | none => exact List.takeWhile_eq_self_iff.mpr hall
  | some digits =>
      rw [hostPort, List.takeWhile_append_of_pos hall]
      simp

/-- The host and its port are looked up as the host. -/
theorem HostNamed.asked (named : HostNamed H P) :
    getIpv4Addr getaddrinfo (hostPort H P) = getIpv4Addr getaddrinfo H := by
  have hhost : HostNamed H none := ⟨named.named, named.plain, fun _ h => nomatch h⟩
  rw [getIpv4Addr, named.cutPort_eq, getIpv4Addr, show cutPort H = H from hhost.cutPort_eq]

/-- The host of the probe is the host of the url, unless that mentions `upload.`. -/
theorem HostNamed.probeHost_eq (named : HostNamed H P)
    (hplain : mentions "upload." (hostPort H P) = false) :
    probeHost (serverUrl H P rest) = hostPort H P := by
  have htokens : tokens '/' (serverUrl H P rest) =
      "http:".toList :: hostPort H P :: tokens '/' rest := by
    rw [serverUrl, scheme_eq, List.append_assoc, List.cons_append,
      tokens_word_delim _ (by decide) (by decide), List.cons_append, List.nil_append, tokens_delim,
      tokens_word_delim rest named.ne_nil named.slash]
  rw [probeHost, htokens]
  simp [probeHostOf, hplain]

theorem servinfo_probed : ((getBestServer servers outcomes).1 i).servinfo =
    (outcomes i).resolved.getD (servers i).servinfo := rfl

/-- The workers have the address that the record of slot 1 has. -/
theorem port_copied {port thread_nums : Nat} {as : List Event} {s : State}
    (hrecorded : ((getBestServer servers outcomes).1 1).servinfo.port = port)
    (h : run (step (runProc servers outcomes thread_nums)) start as = some s) :
    ∀ w ∈ s.workers, ∀ address, w.servinfo = some address → address.port = port := by
  have loaded := invariant_run (fun _ _ _ hs hstep => Loaded.step hs hstep)
    (Loaded.start (runProc servers outcomes thread_nums)) h
  intro w hw address haddress
  rw [loaded.servinfo w hw address haddress]
  exact hrecorded

/-- The record decides what the probe and the workers get. -/
theorem portKept_iff_recorded {port : Nat} : PortKept servers outcomes i port ↔
    ((getBestServer servers outcomes).1 i).servinfo.port = port := by
  constructor
  · exact PortKept.recorded
  · intro hrecorded
    refine ⟨hrecorded, fun address haddress => ?_, fun thread_nums as s hi h => ?_⟩
    · rw [servinfo_probed, haddress] at hrecorded
      exact hrecorded
    · subst hi
      exact port_copied hrecorded h

/-- A server keeps the port that its url names exactly if that is port 80, or if it is not
looked up under its own name, and its record had the port before. -/
theorem port_kept_iff (service : ReturnsServicePort getaddrinfo) (named : HostNamed H P)
    (hurl : (servers i).url = serverUrl H P rest)
    (hresolves : getIpv4Addr getaddrinfo H ≠ none)
    (hprobe : (outcomes i).resolved =
      getIpv4Addr getaddrinfo (domainName (latencyUrl (servers i).url))) :
    PortKept servers outcomes i (namedPort P) ↔
      AsksNamedPort getaddrinfo (servers i) H P := by
  rw [portKept_iff_recorded, servinfo_probed, hprobe, domainName_latencyUrl, AsksNamedPort]
  cases hfound : getIpv4Addr getaddrinfo (probeHost (servers i).url) with
  | some address =>
      have hport : ((some address).getD (servers i).servinfo).port = 80 :=
        getIpv4Addr_port service hfound
      rw [hport, if_neg fun hnot => nomatch hnot.2]
      exact eq_comm
  | none =>
      cases hupload : mentions "upload." (hostPort H P) with
      | true => rw [if_pos ⟨rfl, rfl⟩, Option.getD_none]
      | false =>
          rw [hurl, named.probeHost_eq hupload] at hfound
          exact absurd (named.asked.symm.trans hfound) hresolves

def oneAddress : Resolver := fun _ service =>
  (servicePort service).map fun port => [⟨.inet, ⟨1, port⟩⟩]

theorem oneAddress_service : ReturnsServicePort oneAddress := by
  intro name service port addrinfo hport h
  rw [oneAddress, hport] at h
  cases h
  intro p hp
  rw [List.mem_singleton.mp hp]

def otherPortUrl : Text := "http://a.com:8080/speedtest/upload.php".toList

def otherPortServers : Servers := fun _ => ⟨otherPortUrl, 0, [], ⟨0, 0⟩⟩

def otherPortOutcomes : Outcomes := fun _ =>
  ⟨getIpv4Addr oneAddress (domainName (latencyUrl otherPortUrl)), none, 20⟩

theorem otherPort_named : HostNamed "a.com".toList (some "8080".toList) where
  named := by decide
  plain := by simp
  digits := by simp

theorem port_kept_iff_other :
    PortKept otherPortServers otherPortOutcomes 1 (namedPort (some "8080".toList)) ↔
      AsksNamedPort oneAddress (otherPortServers 1) "a.com".toList (some "8080".toList) :=
  have hurl : (otherPortServers 1).url =
      serverUrl "a.com".toList (some "8080".toList) "speedtest/upload.php".toList := by decide
  port_kept_iff oneAddress_service otherPort_named hurl (by decide) rfl

/-- The server on port 8080 is asked, and used, on port 80. -/
theorem other_port_lost :
    (otherPortServers 1).url = serverUrl "a.com".toList (some "8080".toList)
        "speedtest/upload.php".toList ∧
      getIpv4Addr oneAddress "a.com".toList ≠ none ∧
      (otherPortOutcomes 1).resolved = some ⟨1, 80⟩ ∧
      ¬PortKept otherPortServers otherPortOutcomes 1 8080 := by
  have hprobed : (otherPortOutcomes 1).resolved = some ⟨1, 80⟩ := by decide +kernel
  refine ⟨by decide, by decide, hprobed, fun kept => ?_⟩
  exact absurd (kept.probed _ hprobed) (by decide)

end LinuxTraining.Speedtest
