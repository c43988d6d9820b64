import Lnx.Lib.Crlf
import Lnx.Lib.Strings
import Lnx.Lib.Utf8

/-!
# The Host header of a request

`src/src/ingress.rs`, lines 1394–1427 and 1589–1683. The proxy routes a request by its Host
header, and for a browser's debugging port it puts another host there before it passes the
request on. The two look for the header in different ways. Routing cuts everything that was
read so far at `\n`, the request line and the body included, and takes the first piece that
begins with `Host:` in just these letters. Rewriting cuts the head at `\r\n` and takes the
first line that begins so in any letters, the request line included, but it does not look at
the last line.

* `rewriteHttpHostHeader_eq`: which line is rewritten.
* `rewrite_host_iff`: when that is the first Host header.
* `hostValue_eq`: which piece is taken for the header.
* `routes_by_header_iff`: when a request is routed by its first Host header, and that one is
  rewritten.
-/

namespace Lnx.Ingress

open Option List Crlf
open Strings (isWhitespace trim)
open Utf8 (Text lossy lossy_append_ascii lossy_append_of_ascii lossy_nil lossy_of_ascii
  map_isPrefix_lossy utf8)

/-- `\r\n\r\n` -/
def headEnd : Bytes := [13, 10, 13, 10]

/-- `Host:` -/
def hostColon : Bytes := [72, 111, 115, 116, 58]

/-- `u8::to_ascii_lowercase` -/
def lowerByte (b : UInt8) : UInt8 := if 65 ≤ b.toNat ∧ b.toNat ≤ 90 then b + 32 else b

/-- A line that begins with `Host:`, as `[u8]::eq_ignore_ascii_case` compares. -/
def isHostLine (line : Bytes) : Bool :=
  decide (5 ≤ line.length) && decide ((line.take 5).map lowerByte = hostColon.map lowerByte)

/-- The line that is put in its place. -/
def hostLine (host : Bytes) : Bytes := hostColon ++ 32 :: host

/-! ## Rewriting -/

variable {line x : Bytes} {p : Char → Bool}

theorem length_drop_lt {head rest : Bytes} (h : cutAt crlf head = some (line, rest)) :
    rest.length - 2 < head.length := by
  obtain ⟨-, more, rfl, rfl, -⟩ := cutAt_crlf h
  simp only [length_append, length_cons]
  omega

/-- The loop of `rewrite_http_host_header`, after the bytes `before`: what is left of the head
    is looked at line by line, and `tail` follows the head. -/
def rewriteFrom (host tail before head : Bytes) : Option Bytes :=
  if head = [] then none
  else
    match hcut : cutAt crlf head with
    | none => none
    | some (line, rest) =>
      if isHostLine line then some (before ++ hostLine host ++ (rest ++ tail))
      else
        have := length_drop_lt hcut
        rewriteFrom host tail (before ++ line ++ rest.take 2) (rest.drop 2)
termination_by head.length

/-- `rewrite_http_host_header` -/
def rewriteHttpHostHeader (request host : Bytes) : Bytes :=
  match cutAt headEnd request with
  | none => request
  | some (head, tail) => (rewriteFrom host tail [] head).getD request

/-- A line of a request, as the value of being the Host line. -/
def asHost (line : Bytes) : Option Bytes := if isHostLine line then some line else none

/-- The line that begins at `site.1` is replaced. -/
def replaceAt (request host : Bytes) (site : ℕ × Bytes) : Bytes :=
  request.take site.1 ++ hostLine host ++ request.drop (site.1 + site.2.length)

/-- The request line and the header lines. -/
def requestLines (request : Bytes) : Option (Bytes × List Bytes) :=
  (cutAt headEnd request).bind fun parts => (crlfLines parts.1).head?.map fun line =>
    (line, (crlfLines parts.1).tail)

/-- The first Host header: the place where it begins, and the line. -/
def firstHost (request : Bytes) : Option (ℕ × Bytes) :=
  (requestLines request).bind fun lines => firstAt 2 asHost (lines.1.length + 2) lines.2

/-- What rewriting is to give. -/
def replaceFirstHost (request host : Bytes) : Bytes :=
  ((firstHost request).map (replaceAt request host)).getD request

/-- The line that the loop finds. -/
def reachedHost (request : Bytes) : Option (ℕ × Bytes) :=
  (requestLines request).bind fun lines => firstAt 2 asHost 0 (lines.1 :: lines.2).dropLast

theorem asHost_eq_none : asHost line = none ↔ isHostLine line = false := by
  simp [asHost]

theorem asHost_eq_some {l : Bytes} : asHost line = some l ↔ isHostLine line = true ∧ line = l := by
  simp [asHost]

/-- The loop stops at the first Host line, but for the last line. -/
theorem rewriteFrom_eq (host tail before head : Bytes) :
    rewriteFrom host tail before head =
      (firstAt 2 asHost before.length (crlfLines head).dropLast).map
        (replaceAt (before ++ head ++ tail) host) := by
  fun_induction rewriteFrom host tail before head with
  | case1 before => rfl
  | case2 before head hne h =>
    rw [crlfLines_of_cutAt_none h]
    rfl
  | case3 before head hne line rest h hline =>
    obtain ⟨-, more, rfl, rfl, hlines⟩ := cutAt_crlf h
    rw [hlines, dropLast_cons_of_ne_nil (crlfLines_ne_nil more),
      firstAt_cons_of_some (asHost_eq_some.2 ⟨hline, rfl⟩), map_some]
    simp [replaceAt]
  | case4 before head hne line rest h hline hlt ih =>
    obtain ⟨-, more, rfl, rfl, hlines⟩ := cutAt_crlf h
    rw [ih, hlines, dropLast_cons_of_ne_nil (crlfLines_ne_nil more), firstAt,
      asHost_eq_none.2 (by simpa using hline), map_none, none_or]
    simp [Nat.add_assoc]

theorem rewriteHttpHostHeader_eq (request host : Bytes) : rewriteHttpHostHeader request host =
    ((reachedHost request).map (replaceAt request host)).getD request := by
  rw [rewriteHttpHostHeader, reachedHost, requestLines]
  cases hcut : cutAt headEnd request with
  | none => rfl
  | some parts =>
    obtain ⟨head, tail⟩ := parts
    obtain ⟨line, more, hlines⟩ := exists_cons_of_ne_nil (crlfLines_ne_nil head)
    obtain ⟨rfl, -⟩ := cutAt_eq_some hcut
    simp [rewriteFrom_eq, hlines]

/-! ## Where the lines are -/

section lines

variable {request host a line : Bytes} {hs : List Bytes} {off : ℕ}

theorem requestLines_eq (h : requestLines request = some (a, hs)) :
    (∀ l ∈ a :: hs, IsLine l) ∧ ∃ tail, request = ended (a :: hs) ++ 13 :: 10 :: tail := by
  obtain ⟨⟨head, rest⟩, hcut, hlines⟩ := bind_eq_some_iff.1 h
  obtain ⟨x, hx, heq⟩ := map_eq_some_iff.1 hlines
  obtain ⟨rfl, tail, rfl⟩ := cutAt_eq_some hcut
  cases heq
  have hcons : crlfLines head = a :: (crlfLines head).tail := (cons_head?_tail hx).symm
  refine ⟨fun l hl => isLine_of_mem (hcons.symm ▸ hl), tail, ?_⟩
  rw [← hcons, ← joinCrlf_append_crlf (crlfLines_ne_nil head), joinCrlf_crlfLines]
  rfl

/-- The request around its first Host header. -/
theorem firstHost_eq (h : requestLines request = some (a, hs)) (hfirst : firstHost request = some (off, line)) :
    ∃ pre post tail, hs = pre ++ line :: post ∧ (∀ l ∈ pre, isHostLine l = false) ∧
      isHostLine line = true ∧ IsLine line ∧ off = (ended (a :: pre)).length ∧
      request = ended (a :: pre) ++ (line ++ 13 :: 10 :: tail) := by
  rw [firstHost, h, bind_some] at hfirst
  obtain ⟨pre, l, post, rfl, hpre, hl, hoff⟩ := firstAt_eq_some.1 hfirst
  obtain ⟨hhost, rfl⟩ := asHost_eq_some.1 hl
  obtain ⟨hlines, tail, hrequest⟩ := requestLines_eq h
  refine ⟨pre, post, ended post ++ 13 :: 10 :: tail, rfl, fun x hx => asHost_eq_none.1 (hpre x hx),
    hhost, hlines l (by simp), ?_, ?_⟩
  · rw [hoff, ← width_ended, width_cons]
  · rw [hrequest, ← cons_append, ended_append, ended_cons l, append_assoc,
      append_assoc, cons_append, cons_append]

theorem replaceAt_eq {y : Bytes} (hrequest : request = x ++ (line ++ y)) (hoff : off = x.length) :
    replaceAt request host (off, line) = x ++ (hostLine host ++ y) := by
  subst hrequest hoff
  simp [replaceAt, drop_append]

theorem replaceAt_start {y : Bytes} (hrequest : request = a ++ y) :
    replaceAt request host (0, a) = hostLine host ++ y := by
  subst hrequest
  simp [replaceAt]

section

variable (h : requestLines request = some (a, hs))

include h

/-- The loop reaches the first Host header if it is not the last one, and the request line is
    not taken for one. -/
theorem reachedHost_eq (ha : hs = [] ∨ isHostLine a = false)
    (hreach : ∀ site, firstHost request = some site → hs.dropLast.any isHostLine = true) :
    reachedHost request = firstHost request := by
  rw [reachedHost, firstHost, h, bind_some, bind_some] at *
  rcases eq_nil_or_concat' hs with rfl | ⟨init, last, rfl⟩
  · rfl
  have ha : isHostLine a = false := ha.resolve_left (by simp)
  rw [← cons_append, dropLast_concat, firstAt, asHost_eq_none.2 ha, map_none,
    none_or, Nat.zero_add]
  rw [dropLast_concat] at hreach
  cases hinit : firstAt 2 asHost (a.length + 2) init with
  | none =>
    cases hall : firstAt 2 asHost (a.length + 2) (init ++ [last]) with
    | none => rfl
    | some site =>
      obtain ⟨l, hl, hhost⟩ := any_eq_true.1 (hreach site hall)
      rw [asHost_eq_none.1 (firstAt_eq_none.1 hinit l hl)] at hhost
      cases hhost
  | some site =>
    obtain ⟨pre, l, post, rfl, hpre, hl, hoff⟩ := firstAt_eq_some.1 hinit
    rw [append_assoc, cons_append, firstAt_append hpre, firstAt_cons_of_some hl]
    rw [firstAt_append hpre, firstAt_cons_of_some hl] at hinit
    exact hinit.symm

/-- A request line that is taken for a Host header. -/
theorem reachedHost_of_request_line (hne : hs ≠ []) (ha : isHostLine a = true) :
    reachedHost request = some (0, a) := by
  rw [reachedHost, h, bind_some, dropLast_cons_of_ne_nil hne,
    firstAt_cons_of_some (asHost_eq_some.2 ⟨ha, rfl⟩)]

/-- No Host line before the last line. -/
theorem reachedHost_eq_none (ha : isHostLine a = false)
    (hs' : ∀ l ∈ hs.dropLast, isHostLine l = false) : reachedHost request = none := by
  rw [reachedHost, h, bind_some, firstAt_eq_none]
  intro l hl
  rw [asHost_eq_none]
  cases hs with
  | nil => cases hl
  | cons m ms =>
    rcases mem_cons.1 hl with rfl | hl
    · exact ha
    · exact hs' l hl

end

/-- The loop finds the first Host header, or finds another line, or none, where rewriting makes
    no difference. -/
def Rewritable (request host a : Bytes) (hs : List Bytes) : Prop :=
  hs = [] ∨
    if isHostLine a then
      a = hostLine host ∧ ∀ site, firstHost request = some site → site.2 = hostLine host
    else
      ∀ site, firstHost request = some site →
        hs.dropLast.any isHostLine = true ∨ site.2 = hostLine host

theorem firstHost_nil (h : requestLines request = some (a, [])) : firstHost request = none := by
  rw [firstHost, h]
  rfl

section

variable (hhost : IsLine (hostLine host)) (h : requestLines request = some (a, hs))

include hhost h

theorem rewrite_request_line (hne : hs ≠ []) (ha : isHostLine a = true) :
    rewriteHttpHostHeader request host = replaceFirstHost request host ↔
      a = hostLine host ∧ ∀ site, firstHost request = some site → site.2 = hostLine host := by
  obtain ⟨hlines, tail, hrequest⟩ := requestLines_eq h
  have hline : IsLine a := hlines a mem_cons_self
  rw [rewriteHttpHostHeader_eq, replaceFirstHost, reachedHost_of_request_line h hne ha,
    map_some, getD_some]
  cases hfirst : firstHost request with
  | none =>
    rw [ended_cons, append_assoc] at hrequest
    rw [replaceAt_start hrequest, map_none, getD_none]
    constructor
    · intro heq
      rw [hrequest] at heq
      refine ⟨(append_cancel_right heq).symm, ?_⟩
      intro site hsite
      cases hsite
    · rintro ⟨heq, -⟩
      rw [← heq, ← hrequest]
  | some site =>
    obtain ⟨off, line⟩ := site
    obtain ⟨pre, post, rest, -, -, -, -, hoff, hsplit⟩ := firstHost_eq h hfirst
    rw [map_some, getD_some, replaceAt_eq hsplit hoff]
    rw [ended_cons, append_assoc] at hsplit ⊢
    rw [replaceAt_start hsplit]
    constructor
    · intro heq
      obtain ⟨hnew, hrest⟩ := line_inj hhost hline heq
      refine ⟨hnew.symm, ?_⟩
      intro site hsite
      cases hsite
      exact append_cancel_right (append_cancel_left hrest)
    · rintro ⟨rfl, hsite⟩
      have hline : line = hostLine host := hsite (off, line) rfl
      rw [hline]

theorem rewrite_iff :
    rewriteHttpHostHeader request host = replaceFirstHost request host ↔
      Rewritable request host a hs := by
  by_cases hne : hs = []
  · subst hne
    have hnone := firstHost_nil h
    rw [rewriteHttpHostHeader_eq, replaceFirstHost,
      reachedHost_eq h (.inl rfl) fun site hsite => absurd hsite (by rw [hnone]; simp)]
    exact ⟨fun _ => .inl rfl, fun _ => rfl⟩
  rw [Rewritable, or_iff_right hne]
  by_cases ha : isHostLine a = true
  · rw [if_pos ha]
    exact rewrite_request_line hhost h hne ha
  have ha' : isHostLine a = false := by simpa using ha
  rw [if_neg ha]
  by_cases hreach : hs.dropLast.any isHostLine = true
  · rw [rewriteHttpHostHeader_eq, replaceFirstHost, reachedHost_eq h (.inr ha') fun _ _ => hreach]
    exact ⟨fun _ _ _ => .inl hreach, fun _ => rfl⟩
  -- the loop finds nothing, and a Host header can only be the last line
  have hnone : reachedHost request = none := reachedHost_eq_none h ha' (by simpa using hreach)
  rw [rewriteHttpHostHeader_eq, replaceFirstHost, hnone, map_none, getD_none]
  simp only [hreach, Bool.false_eq_true, false_or]
  cases hfirst : firstHost request with
  | none => simp
  | some site =>
    obtain ⟨off, line⟩ := site
    obtain ⟨pre, post, rest, -, -, -, -, hoff, hsplit⟩ := firstHost_eq h hfirst
    rw [map_some, getD_some, replaceAt_eq hsplit hoff]
    constructor
    · intro heq site hsite
      cases hsite
      rw [hsplit] at heq
      exact append_cancel_right (append_cancel_left heq)
    · intro hsite
      have hline : line = hostLine host := hsite (off, line) rfl
      rw [← hline]
      exact hsplit

end

theorem isLine_hostLine (hcr : 13 ∉ host) : IsLine (hostLine host) := by
  intro hin
  have hmem : (13 : UInt8) ∈ hostLine host := hin.subset (by simp [crlf])
  rw [hostLine, mem_append, mem_cons] at hmem
  rcases hmem with hmem | hmem | hmem
  · exact absurd hmem (by decide)
  · exact absurd hmem (by decide)
  · exact hcr hmem

end lines

/-- Rewriting replaces the first Host header, and nothing else, if and only if the request has
    no header lines, or the request line is no Host line and the first Host header is not the
    last line; or where a line that should be replaced, or should not, is already the new one. -/
theorem rewrite_host_iff (request host : Bytes) (hcr : 13 ∉ host) :
    rewriteHttpHostHeader request host = replaceFirstHost request host ↔
      ∀ a hs, requestLines request = some (a, hs) → Rewritable request host a hs := by
  cases hlines : requestLines request with
  | none =>
    rw [rewriteHttpHostHeader_eq, replaceFirstHost, reachedHost, firstHost, hlines]
    simp
  | some lines =>
    obtain ⟨a, hs⟩ := lines
    rw [rewrite_iff (isLine_hostLine hcr) hlines]
    constructor
    · intro hre a' hs' heq
      cases heq
      exact hre
    · intro hre
      exact hre a hs rfl

/-- A Host header between the request line and another header. -/
def middleHost : Bytes := utf8 "GET / HTTP/1.1\r\nhOST: a\r\nAccept: b\r\n\r\n".toList

/-- A Host header as the only one. -/
def lastHost : Bytes := utf8 "GET / HTTP/1.1\r\nHost: a\r\n\r\n".toList

def devtoolsHost : Bytes := utf8 "127.0.0.1:9222".toList

theorem middle_host_rewritten :
    rewriteHttpHostHeader middleHost devtoolsHost = replaceFirstHost middleHost devtoolsHost := by
  refine (rewrite_host_iff middleHost devtoolsHost (by decide +kernel)).2 ?_
  intro a hs h
  cases h
  refine .inr ?_
  intro site hsite
  exact .inl (by decide +kernel)

/-- A request whose last header is the Host header is passed on as it is. -/
theorem last_host_kept : rewriteHttpHostHeader lastHost devtoolsHost = lastHost ∧
    replaceFirstHost lastHost devtoolsHost =
      utf8 "GET / HTTP/1.1\r\nHost: 127.0.0.1:9222\r\n\r\n".toList := by
  decide +kernel

/-! ## Routing -/

/-- A piece of the request as the Host header, as `handle_http` and `handle_https` read it. -/
def hostValue (piece : Bytes) : Option Text :=
  let line := (lossy piece).rdropWhile (· = '\r')
  if "Host:".toList <+: line then some (trim (line.drop 5)) else none

/-- The host by which a request is routed; without one it is answered with 400. -/
def hostOf (request : Bytes) : Option Text := (request.splitOn 10).findSome? hostValue

/-- The piece that is taken for the Host header: where it begins, and the value. -/
def routedBy (request : Bytes) : Option (ℕ × Text) := firstAt 1 hostValue 0 (request.splitOn 10)

theorem hostOf_eq (request : Bytes) : hostOf request = (routedBy request).map Prod.snd :=
  (firstAt_map_snd 0 _).symm

/-- The value of a header line. -/
def valueOf (line : Bytes) : Text := trim (lossy (line.drop 5))

theorem dropWhile_dropWhile_of_imp {q : Char → Bool} (h : ∀ c, q c = true → p c = true) (t : Text) :
    (t.dropWhile q).dropWhile p = t.dropWhile p := by
  induction t with
  | nil => rfl
  | cons c t ih =>
    rw [dropWhile_cons]
    split_ifs with hq
    · rw [ih, dropWhile_cons_of_pos (h c hq)]
    · rfl

/-- Trailing carriage returns are white space. -/
theorem trim_rdropWhile (t : Text) : trim (t.rdropWhile (· = '\r')) = trim t := by
  have hcr : ∀ c : Char, decide (c = '\r') = true → isWhitespace c = true := by
    intro c hc
    rw [of_decide_eq_true hc]
    decide
  rw [trim, trim, List.rdropWhile, List.rdropWhile, List.rdropWhile, reverse_reverse,
    dropWhile_dropWhile_of_imp hcr]

theorem trim_append_cr (t : Text) : trim (t ++ ['\r']) = trim t := by
  rw [trim, rdropWhile_concat_pos _ _ _ (by decide), trim]

theorem rdropWhile_append_of_self {u : Text} (hu : u.rdropWhile p = u) (v : Text) :
    (u ++ v).rdropWhile p = u ++ v.rdropWhile p := by
  rw [List.rdropWhile, reverse_append, dropWhile_append]
  split_ifs with h
  · rw [List.rdropWhile, List.isEmpty_iff.1 h, reverse_nil, append_nil]
    exact hu
  · simp [List.rdropWhile]

/-- A piece is the Host header if its bytes begin with `Host:`. -/
theorem hostValue_eq (piece : Bytes) :
    hostValue piece = if hostColon <+: piece then some (valueOf piece) else none := by
  have hascii : ∀ b ∈ hostColon, b.toNat < 0x80 := all_iff_forall_prop.1 (by decide)
  have hchars : (hostColon.map fun b => Char.ofNat b.toNat) = "Host:".toList := by decide +kernel
  by_cases hp : hostColon <+: piece
  · obtain ⟨rest, rfl⟩ := hp
    have htext : lossy (hostColon ++ rest) = "Host:".toList ++ lossy rest := by
      rw [lossy_append_of_ascii hascii, hchars]
    have hself : "Host:".toList.rdropWhile (· = '\r') = "Host:".toList := by decide +kernel
    rw [if_pos (prefix_append _ _), hostValue, htext, rdropWhile_append_of_self hself]
    simp only [if_pos (prefix_append _ _)]
    rw [drop_left' (by decide +kernel), trim_rdropWhile, valueOf, drop_left' (by decide)]
  · have hline : ¬ "Host:".toList <+: (lossy piece).rdropWhile (· = '\r') := by
      intro hin
      rw [← map_isPrefix_lossy hascii, hchars] at hp
      exact hp (List.IsPrefix.trans hin (List.rdropWhile_prefix _ _))
    rw [if_neg hp, hostValue, if_neg hline]

theorem hostValue_eq_none {piece : Bytes} : hostValue piece = none ↔ ¬ hostColon <+: piece := by
  simp [hostValue_eq]

theorem hostValue_eq_some {piece : Bytes} {v : Text} :
    hostValue piece = some v ↔ hostColon <+: piece ∧ valueOf piece = v := by
  simp [hostValue_eq]

/-! ## The first piece of a line -/

/-- The bytes before the first `\n`. -/
def upToLf (bs : Bytes) : Bytes := bs.takeWhile (· ≠ 10)

theorem ne_of_mem (hx : 10 ∉ x) : ∀ b ∈ x, decide (b ≠ 10) = true := by
  intro b hb
  rw [decide_eq_true_eq]
  rintro rfl
  exact hx hb

theorem upToLf_of_not_mem (hx : 10 ∉ x) (y : Bytes) : upToLf (x ++ 10 :: y) = x := by
  rw [upToLf, takeWhile_append_of_pos (ne_of_mem hx)]
  simp

theorem upToLf_eq_self (hx : 10 ∉ x) : upToLf x = x :=
  takeWhile_eq_self_iff.2 (ne_of_mem hx)

theorem splitOn_eq_cons (bs y : Bytes) : ∃ more, (bs ++ 10 :: y).splitOn 10 = upToLf bs :: more := by
  by_cases hmem : 10 ∈ bs
  · obtain ⟨x, z, rfl, hx⟩ := eq_append_cons_of_mem hmem
    rw [upToLf_of_not_mem hx, append_assoc, cons_append,
      splitOn_append_cons_self_of_not_mem hx]
    exact ⟨_, rfl⟩
  · rw [upToLf_eq_self hmem, splitOn_append_cons_self_of_not_mem hmem]
    exact ⟨_, rfl⟩

/-- The piece of a Host line begins with `Host:` if the line does. -/
theorem hostColon_isPrefix_upToLf (hlen : 5 ≤ line.length) :
    hostColon <+: upToLf (line ++ [13]) ↔ hostColon <+: line := by
  constructor
  · intro hin
    have hline := List.IsPrefix.trans hin (List.takeWhile_prefix _)
    exact prefix_of_prefix_length_le hline (prefix_append line [13]) hlen
  · rintro ⟨w, rfl⟩
    exact prefix_append _ _

/-- The carriage return of a line is not part of the value. -/
theorem valueOf_upToLf (h : hostColon <+: line) :
    valueOf (upToLf (line ++ [13])) = valueOf (upToLf line) := by
  by_cases hmem : 10 ∈ line
  · obtain ⟨x, z, rfl, hx⟩ := eq_append_cons_of_mem hmem
    rw [append_assoc, cons_append, upToLf_of_not_mem hx, upToLf_of_not_mem hx]
  · obtain ⟨w, rfl⟩ := h
    have hcr : 10 ∉ hostColon ++ w ++ [13] := by simpa using hmem
    have hdrop : ∀ x, (hostColon ++ x).drop 5 = x := fun x => drop_left' rfl
    rw [upToLf_eq_self hmem, upToLf_eq_self hcr, valueOf, valueOf, append_assoc, hdrop, hdrop,
      lossy_append_ascii (by decide), lossy_nil]
    exact trim_append_cr (lossy w)

/-! ## The same header -/

section same

variable {request a line : Bytes} {hs : List Bytes} {off : ℕ}

/-- A request that is routed by its first Host header, and in which that one is rewritten; and
    it is refused exactly when there is none. -/
structure RoutesByHeader (request : Bytes) : Prop where
  routed : routedBy request = (firstHost request).map fun site => (site.1, valueOf site.2)
  rewritten : ∀ host, rewriteHttpHostHeader request host = replaceFirstHost request host
  refused : hostOf request = none ↔ firstHost request = none

/-- Nothing that begins with `Host:` stands where a `\n` has just been, before the header or,
    without one, anywhere; and the header is written in these letters and has its value before
    the first `\n`. -/
def PlainHost (request : Bytes) : Option (ℕ × Bytes) → Prop
  | none => ∀ piece ∈ request.splitOn 10, ¬ hostColon <+: piece
  | some (off, line) => (∀ piece ∈ (request.take (off - 1)).splitOn 10, ¬ hostColon <+: piece) ∧
      hostColon <+: line ∧ valueOf (upToLf line) = valueOf line

section

variable (h : requestLines request = some (a, hs))

include h

theorem routed_iff_of_some (hfirst : firstHost request = some (off, line)) :
    routedBy request = some (off, valueOf line) ↔ PlainHost request (some (off, line)) := by
  obtain ⟨pre, post, tail, -, -, hhost, -, hoff, hsplit⟩ := firstHost_eq h hfirst
  obtain ⟨before, hbefore⟩ := ended_eq_concat (cons_ne_nil a pre)
  have hlen : 5 ≤ line.length := by
    rw [isHostLine, Bool.and_eq_true, decide_eq_true_eq] at hhost
    exact hhost.1
  obtain ⟨more, hmore⟩ := splitOn_eq_cons (line ++ [13]) tail
  have hoff' : off = before.length + 1 := by rw [hoff, hbefore, length_append]; rfl
  have hrequest : request = before ++ 10 :: (line ++ [13] ++ 10 :: tail) := by
    rw [hsplit, hbefore]
    simp
  have htake : request.take (off - 1) = before := by
    rw [hrequest, hoff', Nat.add_sub_cancel, take_left' rfl]
  have hpieces : request.splitOn 10 = before.splitOn 10 ++ upToLf (line ++ [13]) :: more := by
    rw [hrequest, splitOn_append_cons_self, hmore]
  rw [PlainHost, htake, routedBy, hpieces, firstAt_append_eq_some Nat.one_pos (by
    rw [width_splitOn, hoff']; omega), width_splitOn, Nat.zero_add, ← hoff',
    firstAt_cons_eq_self Nat.one_pos, hostValue_eq_some, hostColon_isPrefix_upToLf hlen]
  simp only [hostValue_eq_none]
  constructor
  · rintro ⟨hnone, hcolon, hvalue⟩
    exact ⟨hnone, hcolon, (valueOf_upToLf hcolon).symm.trans hvalue⟩
  · rintro ⟨hnone, hcolon, hvalue⟩
    exact ⟨hnone, hcolon, (valueOf_upToLf hcolon).trans hvalue⟩

theorem routed_iff :
    (routedBy request = (firstHost request).map fun site => (site.1, valueOf site.2)) ↔
      PlainHost request (firstHost request) := by
  cases hfirst : firstHost request with
  | none =>
    rw [map_none, routedBy, firstAt_eq_none]
    simp only [hostValue_eq_none]
    rfl
  | some site =>
    exact routed_iff_of_some h hfirst

theorem rewritten_iff :
    (∀ host, rewriteHttpHostHeader request host = replaceFirstHost request host) ↔
      (hs = [] ∨ isHostLine a = false) ∧
        ∀ site, firstHost request = some site → hs.dropLast.any isHostLine = true := by
  constructor
  · intro hall
    -- a host that is longer than the request is not there yet
    have hlong := (rewrite_iff (isLine_hostLine (by simp)) h).1 (hall (List.replicate request.length 97))
    have hnew : ∀ l : Bytes, l.length ≤ request.length →
        l ≠ hostLine (List.replicate request.length 97) := by
      rintro l hl rfl
      simp [hostLine] at hl
      omega
    rcases hlong with rfl | hlong
    · refine ⟨.inl rfl, fun site hsite => ?_⟩
      rw [firstHost_nil h] at hsite
      cases hsite
    split_ifs at hlong with ha
    · obtain ⟨-, tail, hrequest⟩ := requestLines_eq h
      refine absurd hlong.1 (hnew a ?_)
      rw [hrequest, ended_cons]
      simp
    · refine ⟨.inr (by simpa using ha), fun site hsite => ?_⟩
      obtain ⟨off, line⟩ := site
      obtain ⟨pre, post, tail, -, -, -, -, -, hsplit⟩ := firstHost_eq h hsite
      refine (hlong (off, line) hsite).resolve_right (hnew line ?_)
      rw [hsplit, length_append, length_append]
      omega
  · rintro ⟨ha, hreach⟩ host
    rw [rewriteHttpHostHeader_eq, replaceFirstHost, reachedHost_eq h ha hreach]

end

theorem refused_of_routed
    (h : routedBy request = (firstHost request).map fun site => (site.1, valueOf site.2)) :
    hostOf request = none ↔ firstHost request = none := by
  rw [hostOf_eq, h]
  simp

end same

/-- Routing and rewriting read the first Host header if and only if the request line does not
    begin like one, the header is not the last one, it is spelled `Host:`, and no other piece
    between line feeds begins so: before the header, or anywhere if there is none. -/
theorem routes_by_header_iff (request a : Bytes) (hs : List Bytes)
    (h : requestLines request = some (a, hs)) :
    RoutesByHeader request ↔
      (hs = [] ∨ isHostLine a = false) ∧
        (∀ site, firstHost request = some site → hs.dropLast.any isHostLine = true) ∧
        PlainHost request (firstHost request) := by
  constructor
  · intro hr
    obtain ⟨ha, hreach⟩ := (rewritten_iff h).1 hr.rewritten
    exact ⟨ha, hreach, (routed_iff h).1 hr.routed⟩
  · rintro ⟨ha, hreach, hplain⟩
    have hrouted := (routed_iff h).2 hplain
    exact ⟨hrouted, (rewritten_iff h).2 ⟨ha, hreach⟩, refused_of_routed hrouted⟩

/-- A Host header that is read in the same way by both. -/
def plainHost : Bytes := utf8 "GET / HTTP/1.1\r\nHost: dev.lnx\r\nAccept: b\r\n\r\n".toList

theorem plain_host_routes : RoutesByHeader plainHost := by
  have hline : upToLf (utf8 "Host: dev.lnx".toList) = utf8 "Host: dev.lnx".toList := by decide +kernel
  refine (routes_by_header_iff plainHost (utf8 "GET / HTTP/1.1".toList)
    [utf8 "Host: dev.lnx".toList, utf8 "Accept: b".toList] (by decide +kernel)).2
    ⟨.inr (by decide +kernel), fun _ _ => by decide +kernel, ?_⟩
  exact ⟨by decide +kernel, by decide +kernel, congrArg valueOf hline⟩

/-- A Host header in other letters, and a body that begins with one in these letters. -/
def bodyHost : Bytes :=
  utf8 "POST / HTTP/1.1\r\nhost: a.lnx\r\nAccept: b\r\n\r\nHost: b.lnx".toList

/-- The body decides where the request goes. -/
theorem body_line_routes : hostOf bodyHost = some "b.lnx".toList ∧
    (firstHost bodyHost).map (fun site => valueOf site.2) = some "a.lnx".toList := by
  have hpieces : bodyHost.splitOn 10 = [utf8 "POST / HTTP/1.1\r".toList, utf8 "host: a.lnx\r".toList,
      utf8 "Accept: b\r".toList, utf8 "\r".toList] ++ [utf8 "Host: b.lnx".toList] := by decide +kernel
  have hfirst : firstHost bodyHost = some (17, utf8 "host: a.lnx".toList) := by decide +kernel
  have hbody : valueOf (utf8 "Host: b.lnx".toList) = "b.lnx".toList := by
    decide +kernel
  have hheader : valueOf (utf8 "host: a.lnx".toList) = "a.lnx".toList := by
    decide +kernel
  refine ⟨?_, ?_⟩
  · rw [hostOf_eq, routedBy, hpieces, firstAt_append (by
      decide +kernel),
      firstAt_cons_of_some (hostValue_eq_some.2 ⟨by decide +kernel, hbody⟩), map_some]
  · rw [hfirst, map_some, hheader]

end Lnx.Ingress
