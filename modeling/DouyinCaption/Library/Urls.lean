import Mathlib.Data.List.DropRight
import Mathlib.Data.List.TakeWhile
import DouyinCaption.Library.IpAddress

/-!
# Splitting URLs

`urlsplit` of `urllib.parse` of Python 3.12, on the code points of a text. The part in front of
the path decides the scheme and the network location, whatever path, query and fragment follow
it (`urlsplit_spec`); so what is appended to a URL without query and fragment is appended to its
path (`urlsplit_append`).
-/

namespace DouyinCaption.Urls

open IpAddress

/-- What the standard library has from the Unicode tables. -/
structure Unicode where
  /-- `str.lower` -/
  lower : List Char → List Char
  /-- `str.casefold` -/
  casefold : List Char → List Char
  /-- `unicodedata.normalize('NFKC', …)` -/
  nfkc : List Char → List Char

/-- `str.partition`: what is in front of the first separator, and what is behind it. -/
def partition (separator : Char) (s : List Char) : List Char × Option (List Char) :=
  (s.takeWhile (· != separator),
    match s.dropWhile (· != separator) with
    | [] => none
    | _ :: behind => some behind)

/-- `str.rpartition`: what is in front of the last separator, and what is behind it. -/
def rpartition (separator : Char) (s : List Char) : Option (List Char) × List Char :=
  (match s.rdropWhile (· != separator) with
    | [] => none
    | front => some front.dropLast,
    s.rtakeWhile (· != separator))

/-- `_WHATWG_C0_CONTROL_OR_SPACE` -/
def isC0ControlOrSpace (c : Char) : Bool := c.toNat ≤ 0x20

/-- `_UNSAFE_URL_BYTES_TO_REMOVE` -/
def isUnsafe (c : Char) : Bool := c == '\t' || c == '\r' || c == '\n'

/-- `scheme_chars` -/
def isSchemeChar (c : Char) : Bool := c.isAlphanum || c == '+' || c == '-' || c == '.'

/-- The characters that end a network location. -/
def isDelimiter (c : Char) : Bool := c == '/' || c == '?' || c == '#'

/-- The text without the characters that are never read. -/
def clean (url : List Char) : List Char :=
  (url.dropWhile isC0ControlOrSpace).filter (!isUnsafe ·)

/-- The scheme, and the text behind it. -/
def splitScheme (url : List Char) : List Char × List Char :=
  match partition ':' url with
  | (c :: name, some behind) =>
    if c.isAlpha && (c :: name).all isSchemeChar then ((c :: name).map Char.toLower, behind)
    else ([], url)
  | _ => ([], url)

/-- `_splitnetloc` -/
def splitNetloc (url : List Char) : List Char × List Char :=
  (url.takeWhile (!isDelimiter ·), url.dropWhile (!isDelimiter ·))

/-- The network location behind two slashes, and what follows it. -/
def splitAuthority : List Char → List Char × List Char
  | '/' :: '/' :: url => splitNetloc url
  | url => ([], url)

/-- `_check_bracketed_host` -/
def checkBracketedHost : List Char → Bool
  | 'v' :: host =>
    let version := host.takeWhile fun c => (hexDigit c).isSome
    !version.isEmpty &&
      match host.dropWhile fun c => (hexDigit c).isSome with
      | '.' :: _ :: _ => true
      | _ => false
  | host =>
    match ipAddress host with
    | some (.v6 ..) => true
    | _ => false

/-- `_check_bracketed_netloc` -/
def checkBracketedNetloc (netloc : List Char) : Bool :=
  let (_, hostnameAndPort) := rpartition '@' netloc
  match partition '[' hostnameAndPort with
  | (beforeBracket, some bracketed) =>
    let (hostname, port) := partition ']' bracketed
    beforeBracket.isEmpty && (port.getD []).head?.all (· == ':') && checkBracketedHost hostname
  | _ => checkBracketedHost (partition ':' hostnameAndPort).1

/-- The brackets of the network location. -/
def checkBrackets (netloc : List Char) : Bool :=
  if '[' ∈ netloc ∧ ']' ∈ netloc then checkBracketedNetloc netloc
  else '[' ∉ netloc && ']' ∉ netloc

/-- `_checknetloc` -/
def checkNetloc (py : Unicode) (netloc : List Char) : Bool :=
  let n := netloc.filter (· ∉ ['@', ':', '#', '?'])
  netloc.all (·.toNat < 128) || n == py.nfkc n ||
    ['/', '?', '#', '@', ':'].all (· ∉ py.nfkc n)

/-- The path, the query and the fragment. -/
def splitPath (url : List Char) : List Char × List Char × List Char :=
  let (url, fragment) := partition '#' url
  let (path, query) := partition '?' url
  (path, query.getD [], fragment.getD [])

/-- `SplitResult` -/
structure SplitResult where
  scheme : List Char
  netloc : List Char
  path : List Char
  query : List Char
  fragment : List Char
  deriving DecidableEq, Repr

/-- `urlsplit`; `none` is the `ValueError` -/
def urlsplit (py : Unicode) (url : List Char) : Option SplitResult :=
  let (scheme, url) := splitScheme (clean url)
  let (netloc, url) := splitAuthority url
  let (path, query, fragment) := splitPath url
  if checkBrackets netloc && checkNetloc py netloc then
    some { scheme, netloc, path, query, fragment }
  else none

namespace SplitResult

/-- `_userinfo` -/
def userinfo (r : SplitResult) : Option (List Char) × Option (List Char) :=
  match (rpartition '@' r.netloc).1 with
  | some userinfo => ((partition ':' userinfo).1, (partition ':' userinfo).2)
  | none => (none, none)

def username (r : SplitResult) : Option (List Char) := r.userinfo.1

def password (r : SplitResult) : Option (List Char) := r.userinfo.2

/-- `_hostinfo` -/
def hostinfo (r : SplitResult) : List Char × Option (List Char) :=
  let (_, hostinfo) := rpartition '@' r.netloc
  let (hostname, port) := match partition '[' hostinfo with
    | (_, some bracketed) =>
      let (hostname, port) := partition ']' bracketed
      (hostname, (partition ':' (port.getD [])).2)
    | _ => partition ':' hostinfo
  (hostname, port.filter (!·.isEmpty))

/-- A zone is not lowered. -/
def hostname (py : Unicode) (r : SplitResult) : Option (List Char) :=
  let (hostname, _) := r.hostinfo
  if hostname.isEmpty then none
  else match partition '%' hostname with
    | (hostname, some zone) => some (py.lower hostname ++ '%' :: zone)
    | (hostname, none) => some (py.lower hostname)

/-- `port`; `none` is the `ValueError`. No more than 4300 digits are read as a number. -/
def port (r : SplitResult) : Option (Option ℕ) :=
  match r.hostinfo.2 with
  | none => some none
  | some port =>
    if isDecimal port && port.length ≤ 4300 && ofDecimal port ≤ 65535 then
      some (some (ofDecimal port))
    else none

end SplitResult

/-! ## Partitions -/

section Partition

variable {c : Char} {s a b : List Char}

theorem takeWhile_append_of_stop {p : Char → Bool} (ha : ∀ x ∈ a, p x = true)
    (hb : b.head?.all (!p ·) = true) : (a ++ b).takeWhile p = a := by
  rw [List.takeWhile_append_of_pos ha]
  cases b with
  | nil => exact List.append_nil a
  | cons x b => rw [List.takeWhile_cons_of_neg (by simpa using hb), List.append_nil]

theorem dropWhile_append_of_stop {p : Char → Bool} (ha : ∀ x ∈ a, p x = true)
    (hb : b.head?.all (!p ·) = true) : (a ++ b).dropWhile p = b := by
  rw [List.dropWhile_append_of_pos ha]
  cases b with
  | nil => rfl
  | cons x b => rw [List.dropWhile_cons_of_neg (by simpa using hb)]

theorem partition_of_notMem (h : c ∉ s) : partition c s = (s, none) := by
  have hne : ∀ x ∈ s, (x != c) = true := fun x hx => bne_iff_ne.mpr fun he => h (he ▸ hx)
  rw [partition, List.takeWhile_eq_self_iff.mpr hne, List.dropWhile_eq_nil_iff.mpr hne]

theorem partition_append (h : c ∉ a) : partition c (a ++ c :: b) = (a, some b) := by
  have hne : ∀ x ∈ a, (x != c) = true := fun x hx => bne_iff_ne.mpr fun he => h (he ▸ hx)
  have hstop : (c :: b).head?.all (!(· != c) ·) = true := by simp
  rw [partition, takeWhile_append_of_stop hne hstop, dropWhile_append_of_stop hne hstop]

theorem partition_cases (c : Char) (s : List Char) :
    (c ∉ s ∧ partition c s = (s, none)) ∨
      ∃ a b, s = a ++ c :: b ∧ c ∉ a ∧ partition c s = (a, some b) := by
  by_cases h : c ∈ s
  · obtain ⟨a, b, rfl, ha⟩ := List.eq_append_cons_of_mem h
    exact .inr ⟨a, b, rfl, ha, partition_append ha⟩
  · exact .inl ⟨h, partition_of_notMem h⟩

end Partition

/-! ## What is appended -/

/-- The scheme is decided by what is in front of the colon. -/
theorem splitScheme_spec {url scheme behind : List Char}
    (h : splitScheme url = (scheme, behind)) (hs : scheme ≠ []) :
    ∃ name, url = name ++ ':' :: behind ∧ (∀ x ∈ name, isSchemeChar x = true) ∧
      ∀ behind', splitScheme (name ++ ':' :: behind') = (scheme, behind') := by
  rcases partition_cases ':' url with ⟨-, hp⟩ | ⟨name, b, rfl, hname, hp⟩
  · simp only [splitScheme, hp] at h
    exact absurd (Prod.mk.inj h).1.symm hs
  · have hsplit : ∀ b', splitScheme (name ++ ':' :: b') =
        match name with
        | [] => ([], name ++ ':' :: b')
        | c :: rest =>
          if c.isAlpha && (c :: rest).all isSchemeChar then
            ((c :: rest).map Char.toLower, b')
          else ([], name ++ ':' :: b') := by
      intro b'
      rw [splitScheme, partition_append hname]
      cases name <;> rfl
    rw [hsplit] at h
    cases name with
    | nil => exact absurd (Prod.mk.inj h).1.symm hs
    | cons c rest =>
      dsimp only at h
      split at h
      · rename_i hc
        obtain ⟨rfl, rfl⟩ := Prod.mk.inj h
        refine ⟨c :: rest, rfl, List.all_eq_true.mp (Bool.and_eq_true_iff.mp hc).2, ?_⟩
        intro b'
        rw [hsplit]
        exact if_pos hc
      · exact absurd (Prod.mk.inj h).1.symm hs

/-- The text is empty or begins with a delimiter. -/
def Stops (url : List Char) : Prop := url.head?.all isDelimiter = true

theorem splitNetloc_append {netloc url : List Char} (hn : ∀ x ∈ netloc, isDelimiter x = false)
    (hu : Stops url) : splitNetloc (netloc ++ url) = (netloc, url) := by
  have hpos : ∀ x ∈ netloc, (!isDelimiter x) = true := fun x hx => by rw [hn x hx]; rfl
  have hstop : url.head?.all (!!isDelimiter ·) = true := by simpa [Stops] using hu
  rw [splitNetloc, takeWhile_append_of_stop hpos hstop, dropWhile_append_of_stop hpos hstop]

theorem stops_dropWhile (url : List Char) : Stops (url.dropWhile (!isDelimiter ·)) := by
  rw [Stops]
  cases h : url.dropWhile (!isDelimiter ·) with
  | nil => rfl
  | cons x rest =>
    have := List.head?_dropWhile_not (!isDelimiter ·) url
    rw [h] at this
    simpa using this

/-- The network location is decided by what is in front of the first delimiter. -/
theorem splitAuthority_spec {url netloc rest : List Char}
    (h : splitAuthority url = (netloc, rest)) (hn : netloc ≠ []) :
    url = '/' :: '/' :: netloc ++ rest ∧ (∀ x ∈ netloc, isDelimiter x = false) ∧ Stops rest ∧
      ∀ rest', Stops rest' → splitAuthority ('/' :: '/' :: netloc ++ rest') = (netloc, rest') := by
  rw [splitAuthority.eq_def] at h
  split at h
  · rename_i url
    obtain ⟨rfl, rfl⟩ := Prod.mk.inj h
    have hnetloc : ∀ x ∈ url.takeWhile (!isDelimiter ·), isDelimiter x = false := by
      intro x hx
      simpa using List.mem_takeWhile_imp hx
    refine ⟨?_, hnetloc, stops_dropWhile url, fun rest' hrest => ?_⟩
    · exact congrArg ('/' :: '/' :: ·) List.takeWhile_append_dropWhile.symm
    · exact splitNetloc_append hnetloc hrest
  · exact absurd (Prod.mk.inj h).1.symm hn

/-- A result with another path, query and fragment. -/
def SplitResult.withTail (r : SplitResult) (tail : List Char × List Char × List Char) :
    SplitResult :=
  { r with path := tail.1, query := tail.2.1, fragment := tail.2.2 }

/-- The result is made of the three parts. -/
theorem urlsplit_eq {py : Unicode} {url : List Char} {scheme behind netloc rest : List Char}
    (hscheme : splitScheme (clean url) = (scheme, behind))
    (hnetloc : splitAuthority behind = (netloc, rest)) :
    urlsplit py url =
      if checkBrackets netloc && checkNetloc py netloc then
        some (SplitResult.withTail ⟨scheme, netloc, [], [], []⟩ (splitPath rest))
      else none := by
  rw [urlsplit, hscheme]
  dsimp only
  rw [hnetloc]
  rfl

/-- **What is in front of the path decides the scheme and the network location.** A URL that has
both is split into this front and the rest, and with any other rest behind the front the result
differs in the path, the query and the fragment only. -/
theorem urlsplit_spec {py : Unicode} {url : List Char} {r : SplitResult}
    (h : urlsplit py url = some r) (hs : r.scheme ≠ []) (hn : r.netloc ≠ []) :
    ∃ front rest, clean url = front ++ rest ∧ '?' ∉ front ∧ '#' ∉ front ∧ Stops rest ∧
      r = r.withTail (splitPath rest) ∧
      ∀ url' rest', clean url' = front ++ rest' → Stops rest' →
        urlsplit py url' = some (r.withTail (splitPath rest')) := by
  rcases hscheme : splitScheme (clean url) with ⟨scheme, behind⟩
  rcases hnetloc : splitAuthority behind with ⟨netloc, rest⟩
  rw [urlsplit_eq hscheme hnetloc] at h
  split at h
  · rename_i hcheck
    obtain rfl := Option.some.inj h
    obtain ⟨name, hclean, hname, hscheme'⟩ := splitScheme_spec hscheme hs
    obtain ⟨rfl, hdelim, hstops, hnetloc'⟩ := splitAuthority_spec hnetloc hn
    have hfront : ∀ x, isSchemeChar x = false → x ≠ ':' → x ≠ '/' → isDelimiter x = true →
        x ∉ name ++ ':' :: '/' :: '/' :: netloc := by
      intro x hx hcolon hslash hd hmem
      rcases List.mem_append.mp hmem with hmem | hmem
      · rw [hname x hmem] at hx
        cases hx
      · simp only [List.mem_cons, hcolon, hslash, false_or] at hmem
        rw [hdelim x hmem] at hd
        cases hd
    refine ⟨name ++ ':' :: '/' :: '/' :: netloc, rest, ?_,
      hfront '?' rfl (by decide) (by decide) rfl, hfront '#' rfl (by decide) (by decide) rfl,
      hstops, rfl, ?_⟩
    · rw [hclean]
      simp
    · intro url' rest' hurl hrest
      have hscheme₁ : splitScheme (clean url') = (scheme, '/' :: '/' :: netloc ++ rest') := by
        rw [hurl, ← hscheme']
        simp
      rw [urlsplit_eq hscheme₁ (hnetloc' rest' hrest), if_pos hcheck]
      rfl
  · cases h

theorem splitPath_of_notMem {url : List Char} (hq : '?' ∉ url) (hf : '#' ∉ url) :
    splitPath url = (url, [], []) := by
  rw [splitPath, partition_of_notMem hf]
  dsimp only
  rw [partition_of_notMem hq]
  rfl

/-- Behind a question mark or a hash, what is appended is not a part of the path. -/
theorem splitPath_append_of_mem {url p : List Char} (hp : p ≠ []) (hf : '#' ∉ p)
    (h : '?' ∈ url ∨ '#' ∈ url) :
    (splitPath (url ++ p)).2.1 ≠ [] ∨ (splitPath (url ++ p)).2.2 ≠ [] := by
  rcases partition_cases '#' url with ⟨hfrag, -⟩ | ⟨a, b, rfl, ha, -⟩
  · obtain ⟨a, b, rfl, ha⟩ := List.eq_append_cons_of_mem (h.resolve_right hfrag)
    left
    have hfrag' : '#' ∉ a ++ '?' :: b ++ p := by simp_all
    rw [splitPath, partition_of_notMem hfrag', List.append_assoc, List.cons_append]
    dsimp only
    rw [partition_append ha]
    simp [hp]
  · right
    rw [splitPath, List.append_assoc, List.cons_append, partition_append ha]
    simp [hp]

/-- A character that is not dropped stays. -/
theorem mem_dropWhile {p : Char → Bool} {s : List Char} {c : Char} (hc : p c = false) :
    c ∈ s.dropWhile p ↔ c ∈ s := by
  constructor
  · exact fun h => (List.dropWhile_suffix p).subset h
  · intro h
    rw [← List.takeWhile_append_dropWhile (p := p) (l := s), List.mem_append] at h
    refine h.resolve_left fun htake => ?_
    rw [List.mem_takeWhile_imp htake] at hc
    cases hc

theorem mem_rdropWhile {p : Char → Bool} {s : List Char} {c : Char} (hc : p c = false) :
    c ∈ s.rdropWhile p ↔ c ∈ s := by
  rw [List.rdropWhile, List.mem_reverse, mem_dropWhile hc, List.mem_reverse]

/-- A character that is read is one of the text. -/
theorem mem_clean {url : List Char} {c : Char} (hc : isC0ControlOrSpace c = false)
    (hu : isUnsafe c = false) : c ∈ clean url ↔ c ∈ url := by
  rw [clean, List.mem_filter, mem_dropWhile hc, hu]
  simp

theorem clean_append {url p : List Char} (hurl : clean url ≠ [])
    (hp : p.any isUnsafe = false) : clean (url ++ p) = clean url ++ p := by
  have hne : (url.dropWhile isC0ControlOrSpace).isEmpty = false := by
    rw [List.isEmpty_eq_false_iff]
    intro h
    rw [clean, h] at hurl
    exact hurl rfl
  have hself : p.filter (!isUnsafe ·) = p :=
    List.filter_eq_self.mpr fun x hx => by simpa using List.any_eq_false.mp hp x hx
  rw [clean, List.dropWhile_append, hne, if_neg Bool.false_ne_true, List.filter_append, hself,
    clean]

/-- **What is appended to a URL.** A path appended to a URL with scheme and network location
keeps both. It is appended to the path, and query and fragment stay empty, exactly where the URL
has no question mark and no hash, even if nothing is behind them. -/
theorem urlsplit_append {py : Unicode} {url p : List Char} {r : SplitResult}
    (h : urlsplit py url = some r) (hs : r.scheme ≠ []) (hn : r.netloc ≠ [])
    (hp : p.head? = some '/') (hsafe : p.any isUnsafe = false) (hq : '?' ∉ p)
    (hf : '#' ∉ p) :
    ∃ r', urlsplit py (url ++ p) = some r' ∧ r'.scheme = r.scheme ∧ r'.netloc = r.netloc ∧
      (r'.path = r.path ++ p ∧ r'.query = [] ∧ r'.fragment = [] ↔ '?' ∉ url ∧ '#' ∉ url) := by
  obtain ⟨front, rest, hclean, hqf, hff, hstops, hr, hother⟩ := urlsplit_spec h hs hn
  have hne : clean url ≠ [] := by
    intro hnil
    rw [urlsplit, hnil] at h
    exact hs (congrArg SplitResult.scheme (Option.some.inj h)).symm
  have hstops' : Stops (rest ++ p) := by
    cases rest with
    | nil =>
      rw [List.nil_append, Stops, hp]
      rfl
    | cons x rest => exact hstops
  have hsplit := hother (url ++ p) (rest ++ p)
    ((clean_append hne hsafe).trans (by rw [hclean, List.append_assoc])) hstops'
  have hmem : ∀ c, isC0ControlOrSpace c = false → isUnsafe c = false → c ∉ front →
      (c ∈ rest ↔ c ∈ url) := by
    intro c hc hu hfront
    have hread : c ∈ clean url ↔ c ∈ url := mem_clean hc hu
    rw [← hread, hclean, List.mem_append, or_iff_right hfront]
  have hquery := hmem '?' rfl rfl hqf
  have hfragment := hmem '#' rfl rfl hff
  refine ⟨_, hsplit, rfl, rfl, ?_⟩
  rw [← hquery, ← hfragment]
  constructor
  · rintro ⟨-, hnoquery, hnofragment⟩
    by_contra hcon
    have hpne : p ≠ [] := by
      rintro rfl
      cases hp
    have hin : '?' ∈ rest ∨ '#' ∈ rest := by tauto
    rcases splitPath_append_of_mem hpne hf hin with hsome | hsome
    · exact hsome hnoquery
    · exact hsome hnofragment
  · rintro ⟨hqr, hfr⟩
    have hpath : r.path = rest := by
      rw [hr, splitPath_of_notMem hqr hfr]
      rfl
    rw [splitPath_of_notMem (by simp [hqr, hq]) (by simp [hfr, hf]), hpath]
    exact ⟨rfl, rfl, rfl⟩

/-- The host and the port are those of the network location. -/
theorem SplitResult.hostname_congr (py : Unicode) {r r' : SplitResult}
    (h : r'.netloc = r.netloc) : r'.hostname py = r.hostname py := by
  rw [hostname, hostname, hostinfo, hostinfo, h]

theorem SplitResult.port_congr {r r' : SplitResult} (h : r'.netloc = r.netloc) :
    r'.port = r.port := by
  rw [port, port, hostinfo, hostinfo, h]

/-- A result with a host has a network location. -/
theorem SplitResult.netloc_ne_nil {py : Unicode} {r : SplitResult} {host : List Char}
    (h : r.hostname py = some host) : r.netloc ≠ [] := by
  intro hnil
  rw [hostname, hostinfo, hnil] at h
  cases h

end DouyinCaption.Urls
