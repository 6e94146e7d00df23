import SwApi.Url.Text

/-! Which urls `sw_url_parse` takes apart as they were put together. -/
namespace SwApi.Url
open Library List

inductive Host where
  | name (s : Bytes)
  | ipv6 (s : Bytes)

def Host.bytes : Host → Bytes
  | .name s => s
  | .ipv6 s => s

def Host.text : Host → Bytes
  | .name s => s
  | .ipv6 s => 91 :: (s ++ [93])

def Host.isIpv6 : Host → Bool
  | .name _ => false
  | .ipv6 _ => true

structure Host.Ok (h : Host) : Prop where
  ne_nil : h.bytes ≠ []
  length : h.bytes.length ≤ 255
  free : Free h.bytes (if h.isIpv6 then [0, 47, 92, 64, 93] else [0, 58, 47, 92, 63, 64, 91])

structure LoginOk (user pswd : Bytes) : Prop where
  user_ne_nil : user ≠ []
  user_length : user.length ≤ 31
  user_free : Free user [0, 58, 47, 92, 64]
  pswd_ne_nil : pswd ≠ []
  pswd_length : pswd.length ≤ 31
  pswd_free : Free pswd [0, 47, 92]

structure Components where
  scheme : Bytes
  login : Option (Bytes × Bytes)
  host : Host
  port : Option Nat
  path : Bytes
  scheme_ne_nil : scheme ≠ []
  scheme_length : scheme.length ≤ 31
  scheme_bytes : ∀ c ∈ scheme, isAlnum c = true
  login_ok : ∀ l ∈ login, LoginOk l.1 l.2
  host_ok : host.Ok
  port_ok : ∀ n ∈ port, 0 < n ∧ n < 65536
  path_length : path.length ≤ 1023
  path_free : 0 ∉ path
  path_head : path = [] ∨ ∃ rest, path = 47 :: rest

def loginText : Option (Bytes × Bytes) → Bytes
  | none => []
  | some (user, pswd) => user ++ 58 :: (pswd ++ [64])

def portText : Option Nat → Bytes
  | none => []
  | some n => 58 :: decimal n

def Components.hostPart (u : Components) : Bytes := u.host.text ++ (portText u.port ++ u.path)

def Components.text (u : Components) : Bytes :=
  u.scheme ++ 58 :: 47 :: 47 :: (loginText u.login ++ u.hostPart)

structure Recovered (u : Components) (dst : SwUrl) : Prop where
  head : dst.head = u.scheme
  user : dst.user = (u.login.map Prod.fst).getD []
  pswd : dst.pswd = (u.login.map Prod.snd).getD []
  hostname : cstr dst.hostname = u.host.bytes
  port : dst.port = htons (u.port.getD 0)
  path : dst.path = u.path

theorem findHead_eq {u : Components} : findHead u.text = .ok
    (u.scheme, loginText u.login ++ u.hostPart) := by
  have hcolon : 58 ∉ u.scheme := by
    intro h
    exact absurd (u.scheme_bytes 58 h) (by decide)
  have hbefore : u.text.take (u.text.length -
      (58 :: 47 :: 47 :: (loginText u.login ++ u.hostPart)).length) = u.scheme := by
    simp [Components.text]
  have hall : u.scheme.tail.all isAlnum = true := by
    rw [all_eq_true]
    exact fun c hc => u.scheme_bytes c (mem_of_mem_tail hc)
  have hslash : isSlash (peek (58 :: 47 :: 47 :: (loginText u.login ++ u.hostPart)).tail) = true :=
    rfl
  rw [findHead, show strchr 58 u.text = _ from (strchr_append hcolon _).trans (strchr_cons 58 _)]
  dsimp only
  rw [if_pos hslash, hbefore, if_neg u.scheme_ne_nil, schemeOf, if_pos hall,
    take_of_length_le u.scheme_length]
  rfl

section
variable {user pswd : Bytes}

theorem lastAt_eq (hrest : 64 ∉ rest) (hbefore : ∀ q, rest.length < q.length → isBefore q r = true)
    (hfuel : w.length < fuel) : lastAt r fuel (w ++ 64 :: rest) = 64 :: rest := by
  induction fuel generalizing w with
  | zero => omega
  | succ fuel ih =>
    cases w with
    | nil => rw [nil_append, lastAt, tail_cons, strchr_none hrest]
    | cons d w =>
      obtain ⟨w', hlen, hfound⟩ := strchr_found 64 w rest
      have hlong : rest.length < (d :: w ++ 64 :: rest).length := by
        simp only [length_append, length_cons]
        omega
      rw [lastAt, cons_append, tail_cons, hfound]
      dsimp only
      rw [← cons_append, if_pos (hbefore _ hlong)]
      rw [length_cons] at hfuel
      exact ih (by omega)

theorem lastAt_past (hat : 64 ∈ path) (hq : path <:+ q ∨ q.length ≤ path.length)
    (hfuel : q.length ≤ path.length + fuel) :
    isBefore (lastAt (some path) fuel q) (some path) = false := by
  induction fuel generalizing q with
  | zero =>
    rw [lastAt, isBefore]
    exact decide_eq_false (by omega)
  | succ fuel ih =>
    by_cases hlt : path.length < q.length
    · have hsuffix := hq.resolve_right (by omega)
      obtain ⟨d, t, rfl⟩ := exists_cons_of_length_pos (Nat.zero_lt_of_lt hlt)
      have htail : path <:+ t := by
        refine (suffix_cons_iff.1 hsuffix).resolve_left fun e => ?_
        rw [e] at hlt
        exact Nat.lt_irrefl _ hlt
      obtain ⟨x, y, hxy⟩ := append_of_mem (htail.subset hat)
      obtain ⟨w, -, hfound⟩ := strchr_found 64 x y
      rw [← hxy] at hfound
      have hfirst := strchr_suffix hfound
      rw [lastAt, tail_cons, hfound]
      dsimp only
      rw [if_pos (show isBefore (d :: t) (some path) = true from decide_eq_true hlt)]
      refine ih ?_ ?_
      · exact (suffix_or_suffix_of_suffix htail hfirst).imp_right IsSuffix.length_le
      · have := hfirst.length_le
        rw [length_cons] at hfuel
        omega
    · have hback : isBefore q (some path) = false := decide_eq_false hlt
      rw [lastAt]
      split
      · exact hback
      · rw [if_neg (Bool.eq_false_iff.1 hback)]
        exact hback

theorem isBefore_path (h : path.length < q.length) :
    isBefore q (if path = [] then none else some path) = true := by
  split
  · rfl
  · exact decide_eq_true h

theorem put_user (hlen : w.length + user.length ≤ 31) (hcolon : 58 ∉ user) :
    user.foldl Login.put ⟨w, z, -1⟩ = ⟨w ++ user, z, -1⟩ := by
  induction user generalizing w with
  | nil => rw [append_nil]; rfl
  | cons c user ih =>
    have hc : c ≠ 58 := fun e => hcolon (e ▸ mem_cons_self)
    rw [length_cons] at hlen
    have hput : Login.put ⟨w, z, -1⟩ c = ⟨w ++ [c], z, -1⟩ := by
      rw [Login.put, if_pos ⟨by dsimp only; omega, by dsimp only; decide, hc⟩]
    rw [foldl_cons, hput, ih (by simp only [length_append, length_singleton]; omega)
      fun h => hcolon (mem_cons_of_mem _ h), append_assoc]
    rfl

theorem put_pswd (hlen : w.length + pswd.length ≤ 31) :
    pswd.foldl Login.put ⟨user, fill 32 w, w.length⟩ =
      ⟨user, fill 32 (w ++ pswd), ((w ++ pswd).length : Nat)⟩ := by
  induction pswd generalizing w with
  | nil => rw [append_nil]; rfl
  | cons c pswd ih =>
    rw [length_cons] at hlen
    have hput : Login.put ⟨user, fill 32 w, w.length⟩ c =
        ⟨user, fill 32 (w ++ [c]), ((w ++ [c]).length : Nat)⟩ := by
      rw [Login.put, if_neg (by dsimp only; omega), if_pos (by dsimp only; omega)]
      dsimp only
      rw [Int.toNat_natCast, fill_set (by omega), length_append, length_singleton, Nat.cast_add]
      rfl
    rw [foldl_cons, hput, ih (by simp only [length_append, length_singleton]; omega),
      append_assoc]
    rfl

theorem put_login (h : LoginOk user pswd) : (user ++ 58 :: pswd).foldl Login.put
      ⟨[], fill 32 [], -1⟩ = ⟨user, fill 32 pswd, (pswd.length : Nat)⟩ := by
  have huser := h.user_length
  have hpswd := h.pswd_length
  have hcolon : Login.put ⟨user, fill 32 [], -1⟩ 58 = ⟨user, fill 32 [], ([] : Bytes).length⟩ := by
    rw [Login.put, if_neg (by simp), if_neg (by dsimp only; decide), if_pos rfl]
    rfl
  rw [foldl_append, put_user (by simpa using huser) (h.user_free.not_mem (by simp)), nil_append,
    foldl_cons, hcolon, put_pswd (by simpa using hpswd), nil_append]

theorem loginText_append : loginText (some (user, pswd)) ++ rest =
    (user ++ 58 :: pswd) ++ 64 :: rest := by
  simp [loginText]

end

theorem hostLoop_eq (hs : Free s [58, 47, 92, 63]) (hlen : w.length + s.length ≤ 255)
    (hrest : ∀ c ∈ rest.head?, c ∈ ([58, 47, 92, 63] : Bytes)) :
    hostLoop (s ++ rest) (fill 256 w) w.length = (fill 256 (w ++ s), (w ++ s).length, rest) := by
  induction s generalizing w with
  | nil =>
    rw [append_nil]
    cases rest with
    | nil => rfl
    | cons c rest =>
      have hc := hrest c rfl
      rw [nil_append, hostLoop, if_pos (by simpa using hc)]
  | cons c s ih =>
    have hc : ¬(c = 58 ∨ c = 47 ∨ c = 92 ∨ c = 63) := by
      have := hs c mem_cons_self
      simpa using this
    rw [length_cons] at hlen
    have hnext := ih (w := w ++ [c]) (forall_mem_cons.1 hs).2
      (by simp only [length_append, length_singleton]; omega)
    rw [append_assoc, singleton_append] at hnext
    rw [cons_append, hostLoop, if_neg hc]
    dsimp only
    rw [if_pos (by omega), fill_set (by omega), ← hnext, length_append, length_singleton]

theorem toUInt16_port {n : Nat} (h : n < 65536) : toUInt16 n = n := by
  rw [toUInt16]
  omega

theorem findHost_brackets (hs : (Host.ipv6 s).Ok) : findHost ((Host.ipv6 s).text ++ rest) =
      if peek rest = 58 then
      .ok (⟨fill 256 s, false, true, toUInt16 (strtol rest.tail).1⟩, (strtol rest.tail).2)
      else .ok (⟨fill 256 s, false, true, 0⟩, s ++ 93 :: rest) := by
  have htext : (Host.ipv6 s).text ++ rest = 91 :: (s ++ 93 :: rest) := by
    simp [Host.text]
  have hclose : 93 ∉ s := hs.free.not_mem (by simp [Host.isIpv6])
  have hfound : strchr 93 (s ++ 93 :: rest) = some (93 :: rest) :=
    (strchr_append hclose _).trans (strchr_cons 93 rest)
  have hopen : peek (91 :: (s ++ 93 :: rest)) = 91 ∧
    (strchr 93 (91 :: (s ++ 93 :: rest))).isSome = true := by
    rw [strchr, if_neg (by decide), hfound]
    exact ⟨rfl, rfl⟩
  have hcount : (s ++ 93 :: rest).length - (93 :: rest).length = s.length := by
    rw [length_append, Nat.add_sub_cancel]
  have hpos : s.length ≠ 0 := fun h => hs.ne_nil (length_eq_zero_iff.1 h)
  have hlen : s.length ≤ 255 := hs.length
  rw [htext, findHost, if_pos hopen]
  dsimp only [tail_cons]
  rw [hfound]
  dsimp only
  rw [hcount, if_neg hpos, if_neg (show ¬256 ≤ s.length by omega), take_left]
  rfl

section
variable {path : Bytes} (hpath : path = [] ∨ ∃ t, path = 47 :: t)
include hpath

theorem slash_eq (ha : Free a [47, 92]) :
    (strchr 47 (a ++ path)).or (strchr 92 (a ++ path)) = if path = [] then none else some path := by
  rw [strchr_append (ha.not_mem (by simp)), strchr_append (ha.not_mem (by simp))]
  rcases hpath with rfl | ⟨t, rfl⟩
  · rfl
  · rw [strchr_cons]
    rfl

theorem findLogin_none (ha : Free a [47, 92, 64]) :
    findLogin (a ++ path) = ([], [], a ++ path) := by
  rw [findLogin, slash_eq hpath (ha.mono (by simp)), strchr_append (ha.not_mem (by simp))]
  dsimp only
  split
  · rfl
  · rename_i q hq
    have hle := (strchr_suffix hq).length_le
    have hne : path ≠ [] := by
      rintro rfl
      cases hq
    have hno : ¬isBefore q (some path) = true := Bool.eq_false_iff.1 (decide_eq_false (by omega))
    rw [if_neg hne, if_neg hno, if_neg hno]

theorem findLogin_search (h : LoginOk user pswd) (ha : Free a [47, 92, 64]) :
    let text := (user ++ 58 :: pswd) ++ 64 :: (a ++ path)
    let r := if path = [] then none else some path
    ∃ w, findLogin text =
      let q := lastAt r (w ++ 64 :: (a ++ path)).length (w ++ 64 :: (a ++ path))
      if isBefore q r then
        let l := (text.take (text.length - q.length)).foldl Login.put ⟨[], fill 32 [], -1⟩
        (l.user, cstr l.pswd, q.tail)
      else ([], [], text) := by
  intro text r
  have hfree : Free ((user ++ 58 :: pswd) ++ 64 :: a) [47, 92] := by
    refine Free.append (Free.append (h.user_free.mono (by simp)) ?_)
      (Free.cons (by decide) (ha.mono (by simp)))
    exact Free.cons (by decide) (h.pswd_free.mono (by simp))
  obtain ⟨w, -, hfound⟩ := strchr_found 64 (user ++ 58 :: pswd) (a ++ path)
  have hfirst : isBefore (w ++ 64 :: (a ++ path)) r = true := by
    refine isBefore_path ?_
    simp only [length_append, length_cons]
    omega
  have hr := slash_eq hpath hfree
  rw [append_assoc, cons_append] at hr
  refine ⟨w, ?_⟩
  rw [findLogin, hr, hfound]
  dsimp only
  rw [if_pos hfirst]
  rfl

theorem findLogin_some (h : LoginOk user pswd) (ha : Free a [47, 92, 64]) (hat : 64 ∉ path) :
    findLogin (loginText (some (user, pswd)) ++ (a ++ path)) = (user, pswd, a ++ path) := by
  have hrest : 64 ∉ a ++ path := by
    rw [mem_append]
    exact not_or.2 ⟨ha.not_mem (by simp), hat⟩
  have hbefore (q : Bytes) (hq : (a ++ path).length < q.length) :
      isBefore q (if path = [] then none else some path) = true := by
    refine isBefore_path ?_
    rw [length_append] at hq
    omega
  obtain ⟨w, hsearch⟩ := findLogin_search hpath h ha
  have hw : w.length < (w ++ 64 :: (a ++ path)).length := by
    simp only [length_append, length_cons]
    omega
  rw [lastAt_eq hrest hbefore hw] at hsearch
  dsimp only at hsearch
  rw [loginText_append, hsearch, if_pos (hbefore _ (Nat.lt_succ_self _)), length_append,
    Nat.add_sub_cancel, take_left, put_login h]
  dsimp only
  rw [cstr_fill (h.pswd_free.not_mem (by simp))]
  rfl

/-- An `@` in the path hides the login. -/
theorem findLogin_hidden (h : LoginOk user pswd) (ha : Free a [47, 92, 64]) (hat : 64 ∈ path) :
    (findLogin (loginText (some (user, pswd)) ++ (a ++ path))).1 = [] := by
  have hne : path ≠ [] := ne_nil_of_mem hat
  obtain ⟨w, hsearch⟩ := findLogin_search hpath h ha
  have hpast : isBefore (lastAt (some path) (w ++ 64 :: (a ++ path)).length
    (w ++ 64 :: (a ++ path))) (some path) = false := by
    refine lastAt_past hat (.inl ?_) (Nat.le_add_left _ _)
    exact ⟨w ++ 64 :: a, by rw [append_assoc]; rfl⟩
  rw [if_neg hne] at hsearch
  dsimp only at hsearch
  rw [loginText_append, hsearch, hpast]
  rfl

theorem endsNumber_path : EndsNumber path := by
  rcases hpath with rfl | ⟨t, rfl⟩
  · intro c hc
    cases hc
  · intro c hc
    cases hc
    rfl

theorem peek_path : peek path ≠ 58 := by
  rcases hpath with rfl | ⟨t, rfl⟩
  · decide
  · exact (by decide : (47 : UInt8) ≠ 58)

theorem findHost_name (hs : (Host.name s).Ok) (hport : ∀ n ∈ port, 0 < n ∧ n < 65536) :
    findHost (s ++ (portText port ++ path)) = .ok (⟨fill 256 s, true, false, port.getD 0⟩,
    path) := by
  have hbracket : peek (s ++ (portText port ++ path)) ≠ 91 := by
    cases s with
    | nil => exact absurd rfl hs.ne_nil
    | cons c t =>
      rw [cons_append, peek_cons]
      rintro rfl
      exact hs.free 91 mem_cons_self (by simp [Host.isIpv6])
  have hstop : ∀ c ∈ (portText port ++ path).head?, c ∈ ([58, 47, 92, 63] : Bytes) := by
    intro c hc
    cases port with
    | some n =>
      cases hc
      simp
    | none =>
      rcases hpath with rfl | ⟨t, rfl⟩
      · cases hc
      · cases hc
        simp
  have hlen : s.length ≤ 255 := hs.length
  have hloop : hostLoop (s ++ (portText port ++ path)) (fill 256 []) 0 =
      (fill 256 s, s.length, portText port ++ path) :=
    hostLoop_eq (w := []) (hs.free.mono (by simp [Host.isIpv6]))
      ((Nat.zero_add _).le.trans hlen) hstop
  rw [findHost, if_neg fun h => hbracket h.1,
    show (replicate 256 0 : Bytes) = fill 256 [] from rfl]
  dsimp only
  rw [hloop]
  dsimp only
  rw [fill_set_zero (by omega)]
  cases port with
  | some n =>
    obtain ⟨hpos, hn⟩ := hport n rfl
    have hvalue : (strtol (decimal n ++ path)) = ((n : Int), path) :=
      strtol_decimal hpos (by omega) (endsNumber_path hpath)
    have hatoi : atoi (decimal n ++ path) = n :=
      atoi_decimal hpos (by omega) (endsNumber_path hpath)
    rw [portText, cons_append, peek_cons, if_pos rfl, tail_cons, hvalue, hatoi, toUInt16_port hn]
    rfl
  | none =>
    rw [portText, nil_append, if_neg (peek_path hpath)]
    rfl

theorem findHost_ipv6 (hs : (Host.ipv6 s).Ok) {n : Nat} (hpos : 0 < n) (hn : n < 65536) :
    findHost ((Host.ipv6 s).text ++ (portText (some n) ++ path)) =
      .ok (⟨fill 256 s, false, true, n⟩, path) := by
  have hvalue : (strtol (decimal n ++ path)) = ((n : Int), path) :=
    strtol_decimal hpos (by omega) (endsNumber_path hpath)
  rw [findHost_brackets hs, portText, cons_append, peek_cons, if_pos rfl, tail_cons, hvalue,
    toUInt16_port hn]

theorem findHost_bare (hs : (Host.ipv6 s).Ok) :
    findHost ((Host.ipv6 s).text ++ path) = .ok (⟨fill 256 s, false, true, 0⟩,
    s ++ 93 :: path) := by
  rw [findHost_brackets hs, if_neg (peek_path hpath)]

end

theorem addressGroup_ok (j : Nat) (sip : Nat) (hlen : i + fuel ≤ buf.length) :
    ∃ x, addressGroup buf j fuel i sip = .ok x ∧ ∀ y ∈ x, i ≤ y.1 ∧ y.1 < i + fuel := by
  induction fuel generalizing i sip with
  | zero => exact ⟨none, rfl, by simp⟩
  | succ fuel ih =>
    have hi : i < buf.length := by omega
    rw [addressGroup, getElem?_eq_getElem hi, ofOption_some, ok_bind]
    split
    · exact ⟨_, rfl, by simp⟩
    · split
      · exact ⟨none, rfl, by simp⟩
      · obtain ⟨x, hx, hrange⟩ :=
          ih (sip * 10 + (buf[i].toNat - 48)) (show i + 1 + fuel ≤ buf.length by omega)
        refine ⟨x, hx, fun y hy => ?_⟩
        have := hrange y hy
        omega

theorem addressLoop_ok (hlen : j + 4 * k ≤ buf.length) (hpos : 2 ≤ j + k) :
    ∃ b, addressLoop buf k j = .ok b := by
  induction k generalizing j with
  | zero =>
    rw [addressLoop, getElem?_eq_getElem (show j - 1 < buf.length by omega),
      getElem?_eq_getElem (show j - 2 < buf.length by omega)]
    exact ⟨_, rfl⟩
  | succ k ih =>
    obtain ⟨x, hx, hrange⟩ := addressGroup_ok j 0 (show j + 4 ≤ buf.length by omega)
    rw [addressLoop, hx, ok_bind]
    cases x with
    | none => exact ⟨false, rfl⟩
    | some y =>
      have := hrange y rfl
      dsimp only
      split
      · exact ⟨false, rfl⟩
      · exact ih (by omega) (by omega)

theorem isAddress_ok (hlen : 16 ≤ buf.length) : ∃ b, isAddress buf = .ok b := by
  rw [isAddress]
  split
  · exact ⟨true, rfl⟩
  · exact addressLoop_ok (by omega) (by omega)

theorem resolve_ok (hnet : ∀ name, net.gethostbyname2 name ≠ 0) {head : Bytes}
    (hlen : 16 ≤ h.hostname.length) : ∃ x, resolve net head h = .ok x := by
  unfold resolve
  dsimp only
  split
  · exact ⟨_, rfl⟩
  · split
    · exact ⟨_, rfl⟩
    · obtain ⟨b, hb⟩ := isAddress_ok hlen
      rw [hb, ok_bind]
      cases b with
      | true => exact ⟨_, rfl⟩
      | false => exact ⟨_, if_pos (hnet _)⟩

section
variable {net : Net} (u : Components)

theorem hostPart_free : Free (u.host.text ++ portText u.port) [47, 92, 64] := by
  have hhost : Free u.host.text [47, 92, 64] := by
    have hfree := u.host_ok.free
    cases hh : u.host with
    | name s =>
      rw [hh] at hfree
      exact hfree.mono (by simp [Host.isIpv6])
    | ipv6 s =>
      rw [hh] at hfree
      have hs : Free s [47, 92, 64] := hfree.mono (by simp [Host.isIpv6])
      exact Free.cons (by decide) (hs.append (Free.cons (by decide) (by simp [Free])))
  have hport : Free (portText u.port) [47, 92, 64] := by
    cases u.port with
    | none => simp [portText, Free]
    | some n =>
      exact Free.cons (by decide) (Free.of_all (fun _ hc => isDigit_of_mem_decimal hc)
        (by simp [isDigit]))
  exact hhost.append hport

theorem hostPart_eq : u.hostPart = u.host.text ++ portText u.port ++ u.path := by
  rw [Components.hostPart, append_assoc]

theorem findLogin_cases : findLogin (loginText u.login ++ u.hostPart) =
        ((u.login.map Prod.fst).getD [], (u.login.map Prod.snd).getD [], u.hostPart) ∧
      (u.login.isSome → 64 ∉ u.path) ∨
    (findLogin (loginText u.login ++ u.hostPart)).1 ≠ (u.login.map Prod.fst).getD [] ∧
      u.login.isSome ∧ 64 ∈ u.path := by
  have hfree := hostPart_free u
  rw [hostPart_eq]
  cases hl : u.login with
  | none =>
    exact .inl ⟨findLogin_none u.path_head hfree, by simp⟩
  | some l =>
    have hok := u.login_ok l hl
    by_cases hat : 64 ∈ u.path
    · refine .inr ⟨?_, rfl, hat⟩
      rw [findLogin_hidden u.path_head hok hfree hat]
      exact hok.user_ne_nil.symm
    · exact .inl ⟨findLogin_some u.path_head hok hfree hat, fun _ => hat⟩

theorem findHost_cases : ∃ h p, findHost u.hostPart = .ok (h, p) ∧
    h.hostname = fill 256 u.host.bytes ∧
    h.port = u.port.getD 0 ∧ (p = u.path ∧ (u.host.isIpv6 → u.port.isSome) ∨
      p.take 1023 ≠ u.path ∧ u.host.isIpv6 ∧ u.port = none) := by
  have hok := u.host_ok
  have hport := u.port_ok
  rw [Components.hostPart]
  cases hh : u.host with
  | name s =>
    rw [hh] at hok
    exact ⟨_, _, findHost_name u.path_head hok hport, rfl, rfl, .inl ⟨rfl, by simp [Host.isIpv6]⟩⟩
  | ipv6 s =>
    rw [hh] at hok
    cases hp : u.port with
    | some n =>
      obtain ⟨hpos, hn⟩ := hport n hp
      exact ⟨_, _, findHost_ipv6 u.path_head hok hpos hn, rfl, rfl, .inl ⟨rfl, by simp⟩⟩
    | none =>
      refine ⟨_, _, findHost_bare u.path_head hok, rfl, rfl, .inr ⟨?_, rfl, rfl⟩⟩
      -- the path begins with a slash, the address does not
      obtain ⟨c, t, hs⟩ := exists_cons_of_ne_nil hok.ne_nil
      have hc : c ≠ 47 := by
        rintro rfl
        exact hok.free 47 (hs ▸ mem_cons_self) (by simp [Host.isIpv6])
      have hs : s = c :: t := hs
      rw [hs, cons_append, take_succ_cons]
      intro h
      rcases u.path_head with hnil | ⟨t', hslash⟩
      · rw [hnil] at h
        cases h
      · rw [hslash] at h
        exact hc (List.cons.inj h).1

theorem parse_eq (hnet : ∀ name, net.gethostbyname2 name ≠ 0)
    (hlogin : findLogin (loginText u.login ++ u.hostPart) = (user, pswd, p))
    (hhost : findHost p = .ok (h, p')) (hlen : 16 ≤ h.hostname.length) :
    ∃ dst, swUrlParse net u.text = .ok dst ∧ dst.head = u.scheme ∧ dst.user = user ∧
    dst.pswd = pswd ∧
      dst.hostname = h.hostname ∧ dst.port = htons h.port ∧ dst.path = p'.take 1023 := by
  obtain ⟨x, hx⟩ := resolve_ok hnet hlen
  rw [swUrlParse, findHead_eq, ok_bind]
  dsimp only
  rw [hlogin]
  dsimp only
  rw [hhost, ok_bind]
  dsimp only
  rw [hx, ok_bind]
  exact ⟨_, rfl, rfl, rfl, rfl, rfl, rfl, rfl⟩

theorem parse_user (h : swUrlParse net u.text = .ok dst) :
    dst.user = (findLogin (loginText u.login ++ u.hostPart)).1 := by
  rw [swUrlParse, findHead_eq, ok_bind] at h
  obtain ⟨x, -, h⟩ := bind_eq_ok.1 h
  obtain ⟨y, -, h⟩ := bind_eq_ok.1 h
  cases h
  rfl

/-- Where every name has an address, a url is taken apart as it was put together exactly if no
`@` in its path hides a login and no address in brackets stands without a port. -/
theorem parse_print_iff (hnet : ∀ name, net.gethostbyname2 name ≠ 0) :
    (∃ dst, swUrlParse net u.text = .ok dst ∧ Recovered u dst) ↔
      (u.login.isSome → 64 ∉ u.path) ∧ (u.host.isIpv6 → u.port.isSome) := by
  obtain ⟨hfound, hlogin⟩ | ⟨hwrong, hsome, hat⟩ := findLogin_cases u
  · obtain ⟨h, p, hhost, hname, hport, hcases⟩ := findHost_cases u
    have hlen : 16 ≤ h.hostname.length := by
      rw [hname, fill, length_append, length_replicate]
      omega
    obtain ⟨dst, hdst, hhead, huser, hpswd, hhostname, hdport, hpath⟩ :=
      parse_eq u hnet hfound hhost hlen
    obtain ⟨rfl, hbare⟩ | ⟨hspoilt, hipv6, hnone⟩ := hcases
    · refine iff_of_true ⟨dst, hdst, hhead, huser, hpswd, ?_, ?_, ?_⟩ ⟨hlogin, hbare⟩
      · rw [hhostname, hname, cstr_fill]
        have hfree := u.host_ok.free
        split at hfree <;> exact hfree.not_mem (by simp)
      · rw [hdport, hport]
      · rw [hpath, take_of_length_le u.path_length]
    · refine iff_of_false ?_ ?_
      · rintro ⟨dst', hdst', hrec⟩
        rw [hdst] at hdst'
        cases hdst'
        exact hspoilt (hpath.symm.trans hrec.path)
      · rintro ⟨-, hbare⟩
        have := hbare hipv6
        rw [hnone] at this
        cases this
  · refine iff_of_false ?_ fun h => h.1 hsome hat
    rintro ⟨dst, hdst, hrec⟩
    exact hwrong ((parse_user u hdst).symm.trans hrec.user)

end

def net : Net where
  gethostbyname2 _ := 1
  inetAddr _ := 1
  inetPton _ := none

/-- `http://me:p@w@box:8080/a`. -/
def loginUrl : Components where
  scheme := [104, 116, 116, 112]
  login := some ([109, 101], [112, 64, 119])
  host := .name [98, 111, 120]
  port := some 8080
  path := [47, 97]
  scheme_ne_nil := by simp
  scheme_length := by simp
  scheme_bytes := by simp [isAlnum]
  login_ok := by
    rintro l ⟨⟩
    exact ⟨by simp, by simp, by simp [Free], by simp, by simp, by simp [Free]⟩
  host_ok := ⟨by simp [Host.bytes], by simp [Host.bytes], by simp [Free, Host.bytes, Host.isIpv6]⟩
  port_ok := by simp
  path_length := by simp
  path_free := by simp
  path_head := .inr ⟨_, rfl⟩

theorem parse_print_iff_login : ∃ dst, swUrlParse net loginUrl.text = .ok dst ∧
    Recovered loginUrl dst :=
  (parse_print_iff loginUrl (fun _ => (by decide : (1 : UInt32) ≠ 0))).2
    ⟨fun _ => by decide, fun _ => rfl⟩

/-- `http://u:p@h/a@b`. -/
def hiddenUrl : Components where
  __ := loginUrl
  login := some ([117], [112])
  host := .name [104]
  port := none
  path := [47, 97, 64, 98]
  login_ok := by
    rintro l ⟨⟩
    exact ⟨by simp, by simp, by simp [Free], by simp, by simp, by simp [Free]⟩
  host_ok := ⟨by simp [Host.bytes], by simp [Host.bytes], by simp [Free, Host.bytes, Host.isIpv6]⟩
  port_ok := by simp
  path_length := by simp
  path_free := by simp
  path_head := .inr ⟨_, rfl⟩

/-- The login is not found: its user is taken for the host. -/
theorem hidden_login_is_lost : ∃ dst, swUrlParse net hiddenUrl.text = .ok dst ∧
      ¬Recovered hiddenUrl dst ∧ dst.user = [] ∧ cstr dst.hostname = [117] := by
  refine ⟨_, rfl, fun h => ?_, rfl, rfl⟩
  exact absurd h.user (by decide)

end SwApi.Url
