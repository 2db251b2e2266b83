/-
  Whether the clients over TCP connect to what their string names.

  * `Parses`: every outcome of reading a string, by its form (`parse_eq_iff`);
  * `connect_eq_ok_iff`: the strings that are accepted.  The port is the number
    that follows the first colon, modulo 2^16, and it gets into the socket
    address (`connect_dest`);
  * `connect_exact_iff`: a string is accepted only as it stands if and only if
    what follows the first colon is the numeral of a port, or no number that
    fits an `int`.
-/
import L5RDMA.Connections

namespace L5RDMA

namespace Connections

open Strings

/-! ## Reading a string -/

section
variable {s ip rest : List Char} {v : ℤ} {r : Except Thrown (List Char × ℤ)}

/-- How a string is read: without a colon, and by what follows the first one. -/
inductive Parses (s : List Char) : Except Thrown (List Char × ℤ) → Prop
  | usage (h : ':' ∉ s) : Parses s (.error (.runtimeError "usage: <0.0.0.0:port>"))
  | invalidArgument {ip rest : List Char} (h : Splits ':' s ip rest) (hn : ∀ v, ¬ Number rest v) :
      Parses s (.error (.stoi .invalidArgument))
  | outOfRange {ip rest : List Char} {v : ℤ} (h : Splits ':' s ip rest) (hn : Number rest v)
      (hv : ¬ FitsInt v) : Parses s (.error (.stoi .outOfRange))
  | number {ip rest : List Char} {v : ℤ} (h : Splits ':' s ip rest) (hn : Number rest v)
      (hv : FitsInt v) : Parses s (.ok (ip, v))

theorem Parses.parse_eq (h : Parses s r) : parse s = r := by
  cases h with
  | usage h => simp only [parse, find_eq_none_iff.2 h]
  | invalidArgument h hn => simp only [parse, h.find, h.drop, stoi_of_not_number hn]
  | outOfRange h hn hv => simp only [parse, h.find, h.drop, stoi_of_number hn, if_neg hv]
  | number h hn hv => simp only [parse, h.find, h.drop, h.take, stoi_of_number hn, if_pos hv]

/-- There is no other way. -/
theorem exists_parses (s : List Char) : ∃ r, Parses s r := by
  by_cases hs : ':' ∈ s
  · obtain ⟨ip, rest, h⟩ := splits_of_mem hs
    by_cases hn : ∃ v, Number rest v
    · obtain ⟨v, hn⟩ := hn
      by_cases hv : FitsInt v
      · exact ⟨_, .number h hn hv⟩
      · exact ⟨_, .outOfRange h hn hv⟩
    · exact ⟨_, .invalidArgument h (not_exists.1 hn)⟩
  · exact ⟨_, .usage hs⟩

theorem parse_eq_iff : parse s = r ↔ Parses s r := by
  constructor
  · rintro rfl
    obtain ⟨r, hr⟩ := exists_parses s
    rwa [hr.parse_eq]
  · exact Parses.parse_eq

/-- Blanks, signs and what follows the digits are skipped. -/
example : parse "localhost: +80/tcp".toList = .ok ("localhost".toList, 80) := by rfl

theorem parse_eq_ok_iff :
    parse s = .ok (ip, v) ↔ ∃ rest, Splits ':' s ip rest ∧ Number rest v ∧ FitsInt v := by
  rw [parse_eq_iff]
  constructor
  · rintro (_ | _ | _ | ⟨h, hn, hv⟩)
    exact ⟨_, h, hn, hv⟩
  · rintro ⟨rest, h, hn, hv⟩
    exact .number h hn hv

end

/-! ## Connecting -/

section
variable {os : Os} {s ip : List Char} {port : UInt16} {c : Connected} {client : Client}

/-- The address that a host and a port are turned into. -/
def dest (os : Os) (ip : List Char) (port : UInt16) : SockaddrIn :=
  ⟨AF_INET, htons port, (os.inetPton (cStr ip)).getD 0⟩

theorem tcp_connect_eq_ok_iff : tcp.connect os ip port = .ok c ↔
    c = ⟨ip, port, dest os ip port⟩ ∧ os.connect (dest os ip port) = none := by
  rw [tcp.connect, tcp.connectAddr]
  cases h : os.connect (dest os ip port) with
  | none =>
    rw [dest] at h
    simp only [h]
    constructor
    · rintro ⟨⟩
      exact ⟨rfl, trivial⟩
    · rintro ⟨rfl, -⟩
      rfl
  | some strerror =>
    rw [dest] at h
    simp only [h]
    constructor
    · rintro ⟨⟩
    · rintro ⟨-, ⟨⟩⟩

/-- The six clients do the same. -/
theorem Client.connect_eq : client.connect os = connectString (tcp.connect os) := by
  cases client <;> rfl

theorem connect_eq_ok_iff : client.connect os s = .ok c ↔
    ∃ rest v, Splits ':' s c.ip rest ∧ Number rest v ∧ FitsInt v ∧ c.port = UInt16.ofInt v ∧
      c.dest = dest os c.ip c.port ∧ os.connect c.dest = none := by
  rw [Client.connect_eq, connectString]
  constructor
  · intro h
    cases hp : parse s with
    | error e =>
      rw [hp] at h
      cases h
    | ok r =>
      obtain ⟨ip, v⟩ := r
      obtain ⟨rest, hs, hn, hv⟩ := parse_eq_ok_iff.1 hp
      rw [hp] at h
      obtain ⟨rfl, hc⟩ := tcp_connect_eq_ok_iff.1 h
      exact ⟨rest, v, hs, hn, hv, rfl, rfl, hc⟩
  · rintro ⟨rest, v, hs, hn, hv, hport, hdest, hc⟩
    rw [parse_eq_ok_iff.2 ⟨rest, hs, hn, hv⟩]
    refine tcp_connect_eq_ok_iff.2 ⟨?_, ?_⟩
    · rw [← hport, ← hdest]
    · rw [← hport, ← hdest, hc]

theorem htons_htons (hostshort : UInt16) : htons (htons hostshort) = hostshort := by
  apply UInt16.toBitVec_inj.1
  ext i hi
  -- the low byte, and the high one
  by_cases h : i < 8
  · simp [htons, h]
    grind
  · simp [htons, h]
    grind

/-- The narrowed port is the one that the kernel connects to. -/
theorem connect_dest (h : client.connect os s = .ok c) : htons c.dest.sinPort = c.port := by
  obtain ⟨rest, v, hs, hn, hv, hport, hdest, hc⟩ := connect_eq_ok_iff.1 h
  rw [hdest]
  exact htons_htons c.port

end

/-! ## Strings that are accepted as they stand -/

/-- An accepted string is the host that is handed on, a colon, and the numeral of the port. -/
def Exact (IsNumeral : List Char → ℕ → Prop) (s : List Char) (r : Except Thrown Connected) :
    Prop :=
  ∀ c, r = .ok c → ∃ p, s = c.ip ++ ':' :: p ∧ ':' ∉ c.ip ∧ IsNumeral p c.port.toNat

/-- If the first colon is followed by a number that fits an `int`, then by the numeral of a
    port and nothing else. -/
def NamesPort (IsNumeral : List Char → ℕ → Prop) (s : List Char) : Prop :=
  ∀ ip rest v, Splits ':' s ip rest → Number rest v → FitsInt v →
    ∃ port ≤ 65535, IsNumeral rest port

theorem ofInt_toNat {n : ℕ} (hn : n ≤ 65535) : (UInt16.ofInt n).toNat = n := by
  have h : ((n : ℤ) % 2 ^ 16).toNat = n := by omega
  rw [UInt16.ofInt, h]
  exact UInt16.toNat_ofNat_of_lt' (Nat.lt_succ_of_le hn)

section
variable {s : List Char} {client : Client} {IsNumeral : List Char → ℕ → Prop}

theorem Exact.mono {IsNumeral' : List Char → ℕ → Prop} {r : Except Thrown Connected}
    (hn : ∀ p n, IsNumeral p n → IsNumeral' p n) (h : Exact IsNumeral s r) :
    Exact IsNumeral' s r := by
  intro c hc
  obtain ⟨p, hs, hip, hp⟩ := h c hc
  exact ⟨p, hs, hip, hn _ _ hp⟩

theorem exact_of_namesPort (hd : ∀ p n, IsNumeral p n → Digits p n) (h : NamesPort IsNumeral s)
    (os : Os) : Exact IsNumeral s (client.connect os s) := by
  intro c hc
  obtain ⟨rest, v, hs, hn, hv, hport, -, -⟩ := connect_eq_ok_iff.1 hc
  obtain ⟨port, hle, hp⟩ := h c.ip rest v hs hn hv
  have hnum : v = port := hn.unique (hd rest port hp).number
  refine ⟨rest, hs.1, hs.2, ?_⟩
  rwa [hport, hnum, ofInt_toNat hle]

theorem namesPort_of_exact (h : ∀ os, Exact IsNumeral s (client.connect os s)) :
    NamesPort IsNumeral s := by
  intro ip rest v hs hn hv
  -- a kernel that connects to everything
  let os : Os := ⟨fun _ => none, fun _ => none⟩
  have hc : client.connect os s = .ok ⟨ip, UInt16.ofInt v, dest os ip (UInt16.ofInt v)⟩ :=
    connect_eq_ok_iff.2 ⟨rest, v, hs, hn, hv, rfl, rfl, rfl⟩
  obtain ⟨p, hsp, hip, hp⟩ := h os _ hc
  obtain ⟨-, rfl⟩ := hs.unique ⟨hsp, hip⟩
  exact ⟨_, Nat.le_of_lt_succ (UInt16.toNat_lt _), hp⟩

theorem exact_iff_namesPort (hd : ∀ p n, IsNumeral p n → Digits p n) :
    (∀ os, Exact IsNumeral s (client.connect os s)) ↔ NamesPort IsNumeral s :=
  ⟨namesPort_of_exact, exact_of_namesPort hd⟩

end

/-- For numerals as they are written, and with leading zeros. -/
theorem connect_exact_iff (client : Client) (s : List Char) :
    ((∀ os, Exact Numeral s (client.connect os s)) ↔ NamesPort Numeral s) ∧
      ((∀ os, Exact Digits s (client.connect os s)) ↔ NamesPort Digits s) := by
  constructor
  · exact exact_iff_namesPort fun p n h => h.digits
  · exact exact_iff_namesPort fun p n h => h

/-- The port 65616 becomes 80, with or without leading zeros. -/
theorem portOutOfRange_accepted :
    ¬ Exact Numeral "127.0.0.1:65616".toList
        (TcpTransportClient.connectImpl ⟨fun _ => some 16777343, fun _ => none⟩
          "127.0.0.1:65616".toList) ∧
      ¬ Exact Digits "127.0.0.1:65616".toList
        (TcpTransportClient.connectImpl ⟨fun _ => some 16777343, fun _ => none⟩
          "127.0.0.1:65616".toList) := by
  have hc : TcpTransportClient.connectImpl ⟨fun _ => some 16777343, fun _ => none⟩
      "127.0.0.1:65616".toList = .ok ⟨"127.0.0.1".toList, 80, ⟨2, 20480, 16777343⟩⟩ := by rfl
  have hs : Splits ':' "127.0.0.1:65616".toList "127.0.0.1".toList "65616".toList := by
    constructor
    · rfl
    · decide
  have hd : ¬ Exact Digits "127.0.0.1:65616".toList
      (TcpTransportClient.connectImpl ⟨fun _ => some 16777343, fun _ => none⟩
        "127.0.0.1:65616".toList) := by
    intro h
    obtain ⟨p, hp, hip, -, hn⟩ := h _ hc
    obtain ⟨-, rfl⟩ := hs.unique ⟨hp, hip⟩
    exact absurd hn (by decide)
  exact ⟨fun h => hd (h.mono fun p n hn => hn.digits), hd⟩

end Connections

end L5RDMA
