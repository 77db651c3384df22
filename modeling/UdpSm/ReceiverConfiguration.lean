import UdpSm.InputArgumentsFiles
import UdpSm.Lib.StringCopy
import UdpSm.ReceiverResources

/-! The configuration of the receiver: what `Initialize` copies of the parameters, and what is read
of the copies. -/
namespace UdpSm.NetworkReceiverImplementationEFVI
open Lib Memory
open Mjson (intBytes intBytes_length)

/-! `CfgOpts_t`: the places of its members. -/

def networkInterfaceNamePosition : Nat := 0
def ipv4MulticastPortPosition : Nat := networkInterfaceNamePosition + ifnamsiz
def ipv4MulticastAddressPosition : Nat := ipv4MulticastPortPosition + 4
def ipLocalPosition : Nat := ipv4MulticastAddressPosition + inetAddrstrlen
def configDumpAsciiPosition : Nat := ipLocalPosition + inetAddrstrlen
def configDumpHexadecimalPosition : Nat := configDumpAsciiPosition + 4
def cfgOptsSize : Nat := configDumpHexadecimalPosition + 4

def intAt (m : Memory UInt8) (a : Nat) : Int32 := Int32.ofInt (ofLe (m.load a 4))

/-- The arguments that are copied. A string that is not there is a null pointer. -/
structure ConfigurationCall where
  networkInterfaceName : Option (List UInt8)
  port : Int32
  ipv4MulticastAddress : Option (List UInt8)
  configDumpHexadecimal : Int32
  configDumpAscii : Int32

/-- The start of `Initialize`, with whether it goes on. A length up to the size of the member is let
through, so the NUL of the longest string goes to the next member. -/
def configure (c : ConfigurationCall) (cfg : Memory UInt8) : Option (Bool × Memory UInt8) :=
  match c.networkInterfaceName with
  | none => some (false, cfg)
  | some name =>
    if name.length ≤ ifnamsiz then do
      let cfg ← cfg.strcpy networkInterfaceNamePosition name
      let cfg ← cfg.storeAt ipv4MulticastPortPosition (intBytes 4 c.port.toInt)
      match c.ipv4MulticastAddress with
      | none => some (false, cfg)
      | some address =>
        if address.length ≤ inetAddrstrlen then do
          let cfg ← cfg.strcpy ipv4MulticastAddressPosition address
          let cfg ← cfg.storeAt configDumpHexadecimalPosition (intBytes 4 c.configDumpHexadecimal.toInt)
          let cfg ← cfg.storeAt configDumpAsciiPosition (intBytes 4 c.configDumpAscii.toInt)
          some (true, cfg)
        else some (false, cfg)
    else some (false, cfg)

/-- `struct ifreq`: the name, and a union of 24 bytes behind it. -/
def ifreqSize : Nat := ifnamsiz + 24

/-- `SocketGetIPv4Address`: what `socket` and `ioctl` return, and what `inet_ntoa` gives. -/
def socketGetIPv4Address (sockfd ioctl : Int) (inetNtoa dev : List UInt8) (ifc ipv4 : Memory UInt8) :
    Option (Int × Memory UInt8) :=
  if sockfd < 0 then some (-1, ipv4)
  else
    (ifc.strcpy 0 dev).bind fun _ =>
      if ioctl < 0 then some (-1, ipv4) else (ipv4.strcpy 0 inetNtoa).map (0, ·)

/-! What is read of the copies. -/

def configured (c : ConfigurationCall) (name address : List UInt8) (cfg : Memory UInt8) : Memory UInt8 :=
  ((((cfg.store networkInterfaceNamePosition (name ++ [0])).store ipv4MulticastPortPosition
    (intBytes 4 c.port.toInt)).store ipv4MulticastAddressPosition (address ++ [0])).store
    configDumpHexadecimalPosition (intBytes 4 c.configDumpHexadecimal.toInt)).store
    configDumpAsciiPosition (intBytes 4 c.configDumpAscii.toInt)

section Places
variable {m : Memory UInt8} {a : Nat}

theorem places : networkInterfaceNamePosition = 0 ∧ ipv4MulticastPortPosition = 16 ∧
    ipv4MulticastAddressPosition = 20 ∧ configDumpAsciiPosition = 52 ∧
    configDumpHexadecimalPosition = 56 ∧ cfgOptsSize = 60 ∧ ifnamsiz = 16 ∧ inetAddrstrlen = 16 :=
  ⟨rfl, rfl, rfl, rfl, rfl, rfl, rfl, rfl⟩

theorem storeAt_int (v : Int32) (h : a + 4 ≤ m.size) :
    m.storeAt a (intBytes 4 v.toInt) = some (m.store a (intBytes 4 v.toInt)) :=
  storeAt_natCast m a _ (by rw [intBytes_length]; exact h)

theorem load_int (m : Memory UInt8) (a : Nat) (v : Int32) :
    (m.store a (intBytes 4 v.toInt)).load a 4 = intBytes 4 v.toInt := by
  have hself := load_store_self m a (intBytes 4 v.toInt)
  rwa [intBytes_length] at hself

theorem intAt_of_load {v : Int32} (h : m.load a 4 = intBytes 4 v.toInt) : intAt m a = v := by
  have hvalue : (ofLe (intBytes 4 v.toInt) : Int) = v.toInt % 4294967296 := by
    rw [intBytes, ofLe_leBytes]
    norm_num
    omega
  have hsize : (Int32.size : Int) = 4294967296 := rfl
  apply Int32.toInt_inj.mp
  rw [intAt, h, hvalue, Int32.toInt_ofInt]
  have h1 := v.le_toInt
  have h2 := v.toInt_lt
  simp only [Int.bmod_def, hsize]
  omega

end Places

section Configured
variable {c : ConfigurationCall} {name address : List UInt8} {cfg : Memory UInt8}

theorem strcpy_name (hsize : cfg.size = cfgOptsSize) (hshort : name.length ≤ ifnamsiz) :
    cfg.strcpy networkInterfaceNamePosition name =
      some (cfg.store networkInterfaceNamePosition (name ++ [0])) := by
  obtain ⟨h0, h16, h20, h52, h56, h60, hifname, hinet⟩ := places
  exact strcpy_inside (by omega)

theorem storeAt_port (hsize : cfg.size = cfgOptsSize) :
    (cfg.store networkInterfaceNamePosition (name ++ [0])).storeAt ipv4MulticastPortPosition
        (intBytes 4 c.port.toInt) =
      some ((cfg.store networkInterfaceNamePosition (name ++ [0])).store ipv4MulticastPortPosition
        (intBytes 4 c.port.toInt)) := by
  obtain ⟨h0, h16, h20, h52, h56, h60, hifname, hinet⟩ := places
  apply storeAt_int
  change ipv4MulticastPortPosition + 4 ≤ cfg.size
  omega

theorem configure_accepts (hsize : cfg.size = cfgOptsSize)
    (hname : c.networkInterfaceName = some name) (hshort : name.length ≤ ifnamsiz)
    (haddress : c.ipv4MulticastAddress = some address) (hlength : address.length ≤ inetAddrstrlen) :
    configure c cfg = some (true, configured c name address cfg) := by
  obtain ⟨h0, h16, h20, h52, h56, h60, hifname, hinet⟩ := places
  simp only [configure, hname, haddress, if_pos hshort, if_pos hlength, strcpy_name hsize hshort,
    Option.bind_eq_bind, Option.bind_some, storeAt_port hsize]
  rw [strcpy_inside, Option.bind_some, storeAt_int, Option.bind_some, storeAt_int]
  · rfl
  · change configDumpAsciiPosition + 4 ≤ cfg.size
    omega
  · change configDumpHexadecimalPosition + 4 ≤ cfg.size
    omega
  · change ipv4MulticastAddressPosition + address.length < cfg.size
    omega

theorem configure_refuses (hsize : cfg.size = cfgOptsSize)
    (h : ¬(argumentOk c.networkInterfaceName ifnamsiz && argumentOk c.ipv4MulticastAddress
      inetAddrstrlen) = true) : ∃ cfg', configure c cfg = some (false, cfg') := by
  unfold configure
  cases hname : c.networkInterfaceName with
  | none => exact ⟨cfg, rfl⟩
  | some name =>
    by_cases hshort : name.length ≤ ifnamsiz
    · simp only [if_pos hshort, strcpy_name hsize hshort, Option.bind_eq_bind, Option.bind_some,
        storeAt_port hsize]
      cases haddress : c.ipv4MulticastAddress with
      | none => exact ⟨_, rfl⟩
      | some address =>
        have hlong : ¬address.length ≤ inetAddrstrlen := by
          intro hlength
          exact h (by simp [argumentOk, hname, haddress, hshort, hlength])
        simp only [if_neg hlong]
        exact ⟨_, rfl⟩
    · simp only [if_neg hshort]
      exact ⟨cfg, rfl⟩

theorem configured_port (c : ConfigurationCall) (name address : List UInt8) (cfg : Memory UInt8) :
    (configured c name address cfg).load ipv4MulticastPortPosition 4 = intBytes 4 c.port.toInt := by
  obtain ⟨h0, h16, h20, h52, h56, h60, hifname, hinet⟩ := places
  unfold configured
  rw [load_store_disjoint, load_store_disjoint, load_store_disjoint, load_int]
  · simp only [List.length_append, List.length_singleton]
    omega
  · rw [intBytes_length]
    omega
  · rw [intBytes_length]
    omega

theorem configured_address (c : ConfigurationCall) (name : List UInt8) (cfg : Memory UInt8)
    (hlength : address.length ≤ inetAddrstrlen) :
    (configured c name address cfg).load ipv4MulticastAddressPosition (address.length + 1) =
      address ++ [0] := by
  obtain ⟨h0, h16, h20, h52, h56, h60, hifname, hinet⟩ := places
  unfold configured
  rw [load_store_disjoint, load_store_disjoint]
  · have hself := load_store_self ((cfg.store networkInterfaceNamePosition (name ++ [0])).store
      ipv4MulticastPortPosition (intBytes 4 c.port.toInt)) ipv4MulticastAddressPosition (address ++ [0])
    rwa [List.length_append, List.length_singleton] at hself
  · rw [intBytes_length]
    omega
  · rw [intBytes_length]
    omega

theorem configured_name {n : Nat} (hn : n ≤ ifnamsiz) :
    (configured c name address cfg).load networkInterfaceNamePosition n =
      (cfg.store networkInterfaceNamePosition (name ++ [0])).load networkInterfaceNamePosition n := by
  obtain ⟨h0, h16, h20, h52, h56, h60, hifname, hinet⟩ := places
  unfold configured
  rw [load_store_disjoint, load_store_disjoint, load_store_disjoint, load_store_disjoint]
  · rw [intBytes_length]
    omega
  · simp only [List.length_append, List.length_singleton]
    omega
  · rw [intBytes_length]
    omega
  · rw [intBytes_length]
    omega

theorem port_head (v : Int32) (bytes : List UInt8) :
    (intBytes 4 v.toInt ++ bytes).head? = some 0 ↔ v.toInt % 256 = 0 := by
  change some (UInt8.ofNat (v.toInt % 256 ^ 4).toNat) = some 0 ↔ _
  rw [Option.some_inj, ← UInt8.toNat_inj, UInt8.toNat_ofNat']
  norm_num
  omega

/-- A name of 16 characters runs on into the port, and from there into the address. -/
theorem configured_interface (hsize : cfg.size = cfgOptsSize) (hname : 0 ∉ name)
    (hshort : name.length ≤ ifnamsiz) (hlength : address.length ≤ inetAddrstrlen) :
    (configured c name address cfg).stringAt networkInterfaceNamePosition =
      name ++ if name.length < ifnamsiz then []
        else cstring (intBytes 4 c.port.toInt ++ address) := by
  obtain ⟨h0, h16, h20, h52, h56, h60, hifname, hinet⟩ := places
  have hself := load_store_self cfg networkInterfaceNamePosition (name ++ [0])
  rw [List.length_append, List.length_singleton] at hself
  by_cases hlt : name.length < ifnamsiz
  · rw [if_pos hlt, List.append_nil, stringAt_eq name]
    · exact cstring_eq_self hname
    · change networkInterfaceNamePosition + name.length < cfg.size
      omega
    · rw [configured_name (by omega)]
      exact hself
  · have hall : name.length = 16 := by omega
    have hfirst : (configured c name address cfg).load 0 16 = name := by
      rw [load_add] at hself
      have hload := (List.append_inj hself (by simp)).1
      rw [← h0, ← hall, configured_name (by omega)]
      exact hload
    have hport := configured_port c name address cfg
    have haddress := configured_address c name cfg hlength
    rw [h16] at hport
    rw [h20] at haddress
    rw [if_neg hlt, ← cstring_append _ hname, h0,
      stringAt_eq (name ++ (intBytes 4 c.port.toInt ++ address))]
    · change 0 + (name ++ (intBytes 4 c.port.toInt ++ address)).length < cfg.size
      simp only [List.length_append, intBytes_length]
      omega
    · have hcount : (name ++ (intBytes 4 c.port.toInt ++ address)).length + 1 =
          16 + (4 + (address.length + 1)) := by
        simp only [List.length_append, intBytes_length]
        omega
      rw [hcount, load_add, load_add, hfirst, Nat.zero_add, hport, haddress]
      simp only [List.append_assoc]

structure Copied (c : ConfigurationCall) (name address : List UInt8) (cfg : Memory UInt8) : Prop where
  port : intAt cfg ipv4MulticastPortPosition = c.port
  address : cfg.stringAt ipv4MulticastAddressPosition = address
  hexadecimal : intAt cfg configDumpHexadecimalPosition = c.configDumpHexadecimal
  ascii : intAt cfg configDumpAsciiPosition = c.configDumpAscii
  interface : cfg.stringAt networkInterfaceNamePosition = name ↔
    name.length < ifnamsiz ∨ c.port.toInt % 256 = 0
  lookup : ∀ sockfd ioctl inetNtoa ifc ipv4, ifc.size = ifreqSize → inetNtoa.length < ipv4.size →
    ∃ r, socketGetIPv4Address sockfd ioctl inetNtoa
      (cfg.stringAt networkInterfaceNamePosition) ifc ipv4 = some r

theorem socketGetIPv4Address_returns {sockfd ioctl : Int} {inetNtoa dev : List UInt8}
    {ifc ipv4 : Memory UInt8} (hdev : dev.length < ifc.size) (haddress : inetNtoa.length < ipv4.size) :
    ∃ r, socketGetIPv4Address sockfd ioctl inetNtoa dev ifc ipv4 = some r := by
  have hname : ifc.strcpy 0 dev = some (ifc.store 0 (dev ++ [0])) := strcpy_inside (by omega)
  have htext : ipv4.strcpy 0 inetNtoa = some (ipv4.store 0 (inetNtoa ++ [0])) :=
    strcpy_inside (by omega)
  rw [socketGetIPv4Address, hname, Option.bind_some, htext]
  split_ifs
  · exact ⟨_, rfl⟩
  · exact ⟨_, rfl⟩
  · exact ⟨_, rfl⟩

theorem copied (hsize : cfg.size = cfgOptsSize) (hname : 0 ∉ name) (haddress : 0 ∉ address)
    (hshort : name.length ≤ ifnamsiz) (hlength : address.length ≤ inetAddrstrlen) :
    Copied c name address (configured c name address cfg) := by
  obtain ⟨h0, h16, h20, h52, h56, h60, hifname, hinet⟩ := places
  have hinterface := configured_interface (c := c) hsize hname hshort hlength
  refine ⟨intAt_of_load (configured_port c name address cfg), ?_, intAt_of_load ?_, intAt_of_load (load_int _ _ _), ?_, ?_⟩
  · rw [stringAt_eq address _ (configured_address c name cfg hlength), cstring_eq_self haddress]
    change ipv4MulticastAddressPosition + address.length < cfg.size
    omega
  · unfold configured
    rw [load_store_disjoint, load_int]
    rw [intBytes_length]
    omega
  · rw [hinterface, List.append_right_eq_self]
    by_cases hlt : name.length < ifnamsiz
    · simp only [hlt, if_true, true_or]
    · have hbytes : intBytes 4 c.port.toInt ++ address ≠ [] := by
        intro hnil
        simpa [intBytes_length] using congrArg List.length hnil
      simp only [hlt, if_false, false_or, cstring_eq_nil, hbytes, port_head]
  · intro sockfd ioctl inetNtoa ifc ipv4 hifc hipv4
    refine socketGetIPv4Address_returns ?_ hipv4
    have hsum : ifreqSize = 40 := rfl
    have hread : (cstring (intBytes 4 c.port.toInt ++ address)).length ≤ _ := cstring_length_le
    rw [List.length_append, intBytes_length] at hread
    rw [hinterface, List.length_append]
    split_ifs
    · rw [List.length_nil]
      omega
    · omega

/-- Nothing is written outside the configuration. The strings that are let through are read back,
the interface just where its name has room for its NUL or the port begins with one. -/
theorem configure_copies (c : ConfigurationCall) (cfg : Memory UInt8) (hsize : cfg.size = cfgOptsSize)
    (hname : ∀ s ∈ c.networkInterfaceName, 0 ∉ s) (haddress : ∀ s ∈ c.ipv4MulticastAddress, 0 ∉ s) :
    ∃ cfg', configure c cfg = some (argumentOk c.networkInterfaceName ifnamsiz &&
        argumentOk c.ipv4MulticastAddress inetAddrstrlen, cfg') ∧
      ∀ name ∈ c.networkInterfaceName, ∀ address ∈ c.ipv4MulticastAddress,
        name.length ≤ ifnamsiz → address.length ≤ inetAddrstrlen → Copied c name address cfg' := by
  by_cases hok : (argumentOk c.networkInterfaceName ifnamsiz &&
      argumentOk c.ipv4MulticastAddress inetAddrstrlen) = true
  · obtain ⟨hfirst, hsecond⟩ := Bool.and_eq_true_iff.mp hok
    obtain ⟨name, hn, hshort⟩ := (Option.any_eq_true _ _).mp hfirst
    obtain ⟨address, ha, hlength⟩ := (Option.any_eq_true _ _).mp hsecond
    have hshort := of_decide_eq_true hshort
    have hlength := of_decide_eq_true hlength
    rw [hok]
    refine ⟨_, configure_accepts hsize hn hshort ha hlength, ?_⟩
    rintro name' hn' address' ha' - -
    obtain rfl : name = name' := Option.some.inj (hn.symm.trans hn')
    obtain rfl : address = address' := Option.some.inj (ha.symm.trans ha')
    exact copied hsize (hname name hn) (haddress address ha) hshort hlength
  · obtain ⟨cfg', hrun⟩ := configure_refuses hsize hok
    rw [Bool.eq_false_iff.mpr hok]
    refine ⟨cfg', hrun, fun name hn address ha hshort hlength => absurd ?_ hok⟩
    rw [Option.mem_def.mp hn, Option.mem_def.mp ha]
    simp [argumentOk, hshort, hlength]

end Configured

theorem configure_copies_sixteen : ∃ cfg', configure
    ⟨some (List.replicate 16 97), 21001, some (ascii "239.2.3.1"), 0, 0⟩ ⟨cfgOptsSize, fun _ => 0⟩ =
      some (true, cfg') ∧ cfg'.stringAt ipv4MulticastAddressPosition = ascii "239.2.3.1" ∧
    cfg'.stringAt networkInterfaceNamePosition ≠ List.replicate 16 97 := by
  obtain ⟨cfg', hrun, hcopied⟩ := configure_copies
    ⟨some (List.replicate 16 97), 21001, some (ascii "239.2.3.1"), 0, 0⟩ ⟨cfgOptsSize, fun _ => 0⟩ rfl
    (by
      rintro s hs
      obtain rfl := Option.some.inj hs
      decide)
    (by
      rintro s hs
      obtain rfl := Option.some.inj hs
      decide)
  have hall := hcopied _ rfl _ rfl (by decide) (by decide)
  refine ⟨cfg', hrun, hall.address, fun hsame => ?_⟩
  exact absurd (hall.interface.mp hsame) (by decide)

/-! From the parameters to the configuration. -/

/-- What the application hands on of its parameters, with each string cut at the end of its member. -/
def configurationCall (o : InputArguments) : ConfigurationCall where
  networkInterfaceName := some (cstring (o .networkInterfaceName))
  port := Int32.ofInt (ofLe (o .iPv4MulticastUdpPort))
  ipv4MulticastAddress := some (cstring (o .iPv4MulticastAddress))
  configDumpHexadecimal := Int32.ofInt (ofLe (o .configDumpReceivedPacketsInHexadecimalFormat))
  configDumpAscii := Int32.ofInt (ofLe (o .configDumpReceivedPacketsInAsciiFormat))

section Parameters
variable {o : InputArguments}

/-- Where the members of the two names ended in a NUL before, every file leaves parameters that the
receiver lets through and reads back, each of them. They are printed without harm where the other two
names did as well. -/
theorem parameters_configured (cfg : Memory UInt8) (hsize : InputArguments.Sized o)
    (hname : (o .networkInterfaceName).getLast? = some 0)
    (haddress : (o .iPv4MulticastAddress).getLast? = some 0) (argc : Nat)
    (file : Option (List UInt8 × Nat)) (hcfg : cfg.size = cfgOptsSize) :
    ∃ status o' cfg', InputArguments.parseParameters argc file o = .ok (status, o') ∧
      ((o .sharedMemoryName).getLast? = some 0 → (o .loggingFileName).getLast? = some 0 →
        InputArguments.readParameters argc file o = .ok (status, o')) ∧
      0 ∈ o' .networkInterfaceName ∧ 0 ∈ o' .iPv4MulticastAddress ∧
      configure (configurationCall o') cfg = some (true, cfg') ∧
      Copied (configurationCall o') (cstring (o' .networkInterfaceName))
        (cstring (o' .iPv4MulticastAddress)) cfg' ∧
      cfg'.stringAt networkInterfaceNamePosition = cstring (o' .networkInterfaceName) := by
  obtain ⟨status, o', hparse, houtcome⟩ := InputArguments.parseParameters_ends argc file hsize
  have hnameNul := houtcome.terminated_of_last hsize rfl hname
  have haddressNul := houtcome.terminated_of_last hsize rfl haddress
  have hnameShort := cstring_length_lt hnameNul
  have haddressShort := cstring_length_lt haddressNul
  rw [houtcome.survives.sized] at hnameShort haddressShort
  have hcopied := copied (c := configurationCall o') hcfg zero_not_mem_cstring zero_not_mem_cstring
    (Nat.le_of_lt hnameShort) (Nat.le_of_lt haddressShort)
  refine ⟨status, o', _, hparse, fun hshared hlog => ?_, hnameNul, haddressNul,
    configure_accepts hcfg rfl (Nat.le_of_lt hnameShort) rfl (Nat.le_of_lt haddressShort), hcopied,
    hcopied.interface.mpr (.inl hnameShort)⟩
  refine InputArguments.readParameters_ok hparse (.inr fun f hf => ?_)
  cases f with
  | networkInterfaceName => exact hnameNul
  | iPv4MulticastAddress => exact haddressNul
  | sharedMemoryName => exact houtcome.terminated_of_last hsize rfl hshared
  | loggingFileName => exact houtcome.terminated_of_last hsize rfl hlog
  | _ => exact absurd hf (by decide)

def ended : InputArguments := fun f => List.replicate (InputArguments.sizeOfField f - 1) 85 ++ [0]

theorem ended_sized : InputArguments.Sized ended := by
  intro f
  rw [ended, List.length_append, List.length_replicate, List.length_singleton]
  cases f <;> rfl

def namesFile : List UInt8 :=
  ascii "\x7b\"iface\":\"eth0\",\"ip_multicast\":\"239.2.3.1\"\x7d"

theorem parameters_configured_named : ∃ o' cfg',
    InputArguments.readParameters 2 (some (namesFile, namesFile.length)) ended = .ok (0, o') ∧
    configure (configurationCall o') ⟨cfgOptsSize, fun _ => 255⟩ = some (true, cfg') ∧
    cfg'.stringAt networkInterfaceNamePosition = ascii "eth0" ∧
    cfg'.stringAt ipv4MulticastAddressPosition = ascii "239.2.3.1" := by
  obtain ⟨status, o', cfg', -, hreturns, -, -, hconfigure, hcopied, hsame⟩ := parameters_configured
    ⟨cfgOptsSize, fun _ => 255⟩ ended_sized List.getLast?_concat List.getLast?_concat 2
    (some (namesFile, namesFile.length)) rfl
  have hrun := hreturns List.getLast?_concat List.getLast?_concat
  have hread : ((InputArguments.readParameters 2 (some (namesFile, namesFile.length))
      ended).toOption.map fun r =>
        (r.1, cstring (r.2 .networkInterfaceName), cstring (r.2 .iPv4MulticastAddress))) =
      some (0, ascii "eth0", ascii "239.2.3.1") := by decide +kernel
  rw [hrun] at hread
  simp only [Except.toOption, Option.map_some, Option.some_inj, Prod.mk.injEq] at hread
  obtain ⟨rfl, hname, haddress⟩ := hread
  exact ⟨o', cfg', hrun, hconfigure, hsame.trans hname, hcopied.address.trans haddress⟩

end Parameters

end UdpSm.NetworkReceiverImplementationEFVI
