import Cppim.Http.RequestLine

/-! What `HttpContext::parseRequestLine` accepts, and what it makes of a line.

`parseRequestLine_grammar` is the grammar of request lines, for every text.
`parseRequestLine_querys` says which names are in the map that a query is parsed into,
and with which values. -/

namespace Cppim.Http.HttpContext

open Cppim.Common Cppim.Lib.Cut HttpServer

/-! ## The parts of a line -/

def methods : List (Bytes × Method) :=
  [(bytes "GET", .kGet), (bytes "POST", .kPost), (bytes "HEAD", .kHead), (bytes "PUT", .kPut),
    (bytes "DELETE", .kDelete)]

/-- The digits that a version can end in. -/
def versions : List (UInt8 × Version) := [(48, .kHttp10), (49, .kHttp11)]

/-- The line is a method, a space, a target without spaces, a space and a version. -/
def IsRequestLine (line : Bytes) (method : Method) (target : Bytes) (version : Version) : Prop :=
  ∃ name digit, (name, method) ∈ methods ∧ (digit, version) ∈ versions ∧ space ∉ target ∧
    line = name ++ [space] ++ target ++ [space] ++ bytes "HTTP/1." ++ [digit]

theorem mem_methods_iff (name : Bytes) (method : Method) :
    (name, method) ∈ methods ↔ HttpRequest.methodOf name = method ∧ method ≠ .kInvalid := by
  constructor
  · intro h
    simp only [methods, List.mem_cons, Prod.mk.injEq, List.not_mem_nil, or_false] at h
    rcases h with ⟨rfl, rfl⟩ | ⟨rfl, rfl⟩ | ⟨rfl, rfl⟩ | ⟨rfl, rfl⟩ | ⟨rfl, rfl⟩ <;> decide
  · rintro ⟨h, hne⟩
    unfold HttpRequest.methodOf at h
    repeat' split at h
    all_goals subst h
    · subst name; decide
    · subst name; decide
    · subst name; decide
    · subst name; decide
    · subst name; decide
    · exact absurd rfl hne

theorem space_not_mem_method {name : Bytes} {method : Method} (h : (name, method) ∈ methods) :
    space ∉ name := by
  simp only [methods, List.mem_cons, Prod.mk.injEq, List.not_mem_nil, or_false] at h
  rcases h with ⟨rfl, -⟩ | ⟨rfl, -⟩ | ⟨rfl, -⟩ | ⟨rfl, -⟩ | ⟨rfl, -⟩ <;> decide

theorem setVersionFrom_ok {digit : UInt8} {version : Version} (h : (digit, version) ∈ versions)
    (req : HttpRequest) :
    setVersionFrom req (bytes "HTTP/1." ++ [digit]) = (true, req.setVersion version) := by
  simp only [versions, List.mem_cons, Prod.mk.injEq, List.not_mem_nil, or_false] at h
  rcases h with ⟨rfl, rfl⟩ | ⟨rfl, rfl⟩ <;> rfl

theorem isVersion_iff (text : Bytes) :
    IsVersion text ↔ ∃ digit version, (digit, version) ∈ versions ∧
      text = bytes "HTTP/1." ++ [digit] := by
  constructor
  · rintro (rfl | rfl)
    · exact ⟨48, .kHttp10, by decide, by decide⟩
    · exact ⟨49, .kHttp11, by decide, by decide⟩
  · rintro ⟨digit, version, h, rfl⟩
    simp only [versions, List.mem_cons, Prod.mk.injEq, List.not_mem_nil, or_false] at h
    rcases h with ⟨rfl, -⟩ | ⟨rfl, -⟩
    · exact Or.inl (by decide)
    · exact Or.inr (by decide)

/-! ## The target -/

/-- One turn of the loop over the parameters, on the map alone. -/
def insertParm (querys : StringMap) (parm : Bytes) : StringMap :=
  match cut [equals] parm with
  | some (name, value) => querys.insertIfNew name value
  | none => querys

theorem foldl_addParm_eq (parms : List Bytes) (req : HttpRequest) :
    parms.foldl addParm req = { req with querys_ := parms.foldl insertParm req.querys_ } := by
  induction parms generalizing req with
  | nil => rfl
  | cons parm parms ih =>
    have hone : addParm req parm = { req with querys_ := insertParm req.querys_ parm } := by
      unfold addParm insertParm
      cases cut [equals] parm <;> rfl
    rw [List.foldl_cons, ih, hone, List.foldl_cons]

theorem setTarget_query (req : HttpRequest) {path query : Bytes} (hpath : questionMark ∉ path) :
    setTarget req (path ++ questionMark :: query) =
      { req with
        path_ := path
        query_ := query
        querys_ := (split query (bytes "&")).foldl insertParm req.querys_ } := by
  rw [setTarget, cut_singleton hpath]
  exact foldl_addParm_eq _ _

theorem setTarget_plain (req : HttpRequest) {target : Bytes} (h : questionMark ∉ target) :
    setTarget req target = { req with path_ := target } := by
  rw [setTarget, cut_singleton_eq_none.mpr h]
  rfl

/-! ## The line -/

/-- A line of the grammar is accepted. -/
theorem parseRequestLine_of {line target : Bytes} {method : Method} {version : Version}
    (h : IsRequestLine line method target version) :
    parseRequestLine {} line =
      .ok (true, (setTarget { method_ := method } target).setVersion version) := by
  obtain ⟨name, digit, hname, hdigit, htarget, rfl⟩ := h
  obtain ⟨hmethod, hvalid⟩ := (mem_methods_iff name method).mp hname
  have hfirst : cut [space] (name ++ [space] ++ target ++ [space] ++ bytes "HTTP/1." ++ [digit]) =
      some (name, target ++ space :: (bytes "HTTP/1." ++ [digit])) := by
    rw [cut_singleton_iff]
    exact ⟨by simp, space_not_mem_method hname⟩
  have hset : HttpRequest.setMethod {} name = .ok (true, { method_ := method }) := by
    rw [setMethod_ok rfl, hmethod]
    simp [hvalid]
  simp only [parseRequestLine, hfirst, hset, ok_bind, ↓reduceIte, cut_singleton htarget,
    setVersionFrom_ok hdigit, pure_eq_ok]

/-- An accepted line is one of the grammar. -/
theorem exists_of_parseRequestLine {line : Bytes} {req : HttpRequest}
    (h : parseRequestLine {} line = .ok (true, req)) :
    ∃ method target version, IsRequestLine line method target version := by
  have hfresh : ({} : HttpRequest).method_ = .kInvalid := rfl
  unfold parseRequestLine at h
  cases hname : cut [space] line with
  | none => simp [hname] at h
  | some q =>
    obtain ⟨name, rest⟩ := q
    rw [hname] at h
    simp only [setMethod_ok hfresh, ok_bind] at h
    by_cases hvalid : HttpRequest.methodOf name = .kInvalid
    · simp [hvalid] at h
    · cases htarget : cut [space] rest with
      | none => simp [hvalid, htarget] at h
      | some q =>
        obtain ⟨target, text⟩ := q
        simp only [hvalid, htarget, ne_eq, not_false_eq_true, decide_true, ↓reduceIte,
          pure_eq_ok, Except.ok.injEq] at h
        have hversion : IsVersion text := (setVersionFrom_fst _ text).mp (by rw [h])
        obtain ⟨digit, version, hdigit, rfl⟩ := (isVersion_iff text).mp hversion
        obtain ⟨rfl, -⟩ := cut_singleton_iff.mp hname
        obtain ⟨rfl, hspace⟩ := cut_singleton_iff.mp htarget
        exact ⟨_, target, version, name, digit, (mem_methods_iff name _).mpr ⟨rfl, hvalid⟩,
          hdigit, hspace, by simp⟩

/-- **The grammar of request lines.** On a fresh request `parseRequestLine` returns true
exactly on the lines of the grammar, and stores the method, the version, and what stands
before and behind the first question mark of the target. -/
theorem parseRequestLine_grammar (line : Bytes) :
    ∃ ok req, parseRequestLine {} line = .ok (ok, req) ∧
      (ok = true ↔ ∃ method target version, IsRequestLine line method target version) ∧
      ∀ method target version, IsRequestLine line method target version →
        req.method_ = method ∧ req.version_ = version ∧
        (∀ path query, target = path ++ questionMark :: query → questionMark ∉ path →
          req.path_ = path ∧ req.query_ = query) ∧
        (questionMark ∉ target → req.path_ = target ∧ req.query_ = []) := by
  have hfresh : ({} : HttpRequest).method_ = .kInvalid := rfl
  obtain ⟨ok, req, hparse, -⟩ := parseRequestLine_refused hfresh line
  refine ⟨ok, req, hparse, ⟨?_, ?_⟩, ?_⟩
  · rintro rfl
    exact exists_of_parseRequestLine hparse
  · rintro ⟨method, target, version, hline⟩
    rw [parseRequestLine_of hline] at hparse
    cases hparse
    rfl
  · intro method target version hline
    rw [parseRequestLine_of hline] at hparse
    cases hparse
    refine ⟨setTarget_method _ _, rfl, ?_, ?_⟩
    · rintro path query rfl hpath
      rw [setTarget_query _ hpath]
      exact ⟨rfl, rfl⟩
    · intro hplain
      rw [setTarget_plain _ hplain]
      exact ⟨rfl, rfl⟩

/-! ## The query -/

def ampersand : UInt8 := 38

/-- The segment gives the name a value: it has the name before its first `=`. -/
def Names (seg name : Bytes) : Prop := ∃ value, seg = name ++ equals :: value ∧ equals ∉ name

/-- The value that a segment gives to a name. -/
def valueIn (name seg : Bytes) : Option Bytes :=
  match cut [equals] seg with
  | some (name', value) => if name' = name then some value else none
  | none => none

theorem valueIn_eq_some_iff (name seg value : Bytes) :
    valueIn name seg = some value ↔ seg = name ++ equals :: value ∧ equals ∉ name := by
  rw [← cut_singleton_iff, valueIn]
  cases cut [equals] seg with
  | none => simp
  | some q =>
    obtain ⟨name', value'⟩ := q
    by_cases hname : name' = name
    · simp [hname]
    · simp [hname]

theorem valueIn_eq_none_iff (name seg : Bytes) : valueIn name seg = none ↔ ¬ Names seg name := by
  rw [Option.eq_none_iff_forall_ne_some]
  simp only [ne_eq, valueIn_eq_some_iff, Names, not_exists]

/-- The first segment that names it decides. -/
theorem getElem?_foldl_insertParm (segs : List Bytes) (querys : StringMap) (name : Bytes) :
    (segs.foldl insertParm querys)[name]? = (querys[name]?).or (segs.findSome? (valueIn name)) := by
  induction segs generalizing querys with
  | nil => simp
  | cons seg segs ih =>
    have hone : (insertParm querys seg)[name]? = (querys[name]?).or (valueIn name seg) := by
      unfold insertParm valueIn
      cases cut [equals] seg with
      | none => simp
      | some q =>
        obtain ⟨name', value⟩ := q
        rw [Std.ExtTreeMap.getElem?_insertIfNew]
        by_cases hname : name' = name
        · subst hname
          by_cases hmem : name' ∈ querys
          · simp [hmem]
          · simp [hmem]
        · simp [hname]
    rw [List.foldl_cons, ih, hone, List.findSome?_cons, Option.or_assoc]
    cases valueIn name seg <;> simp

/-- The empty segment that `split` leaves out of an empty query names nothing. -/
theorem foldl_insertParm_split (query : Bytes) (querys : StringMap) :
    (split query (bytes "&")).foldl insertParm querys =
      (query.splitOn ampersand).foldl insertParm querys := by
  have hsep : bytes "&" = [ampersand] := by decide
  rw [hsep, split_singleton]
  by_cases h : query = []
  · subst h
    rfl
  · rw [if_neg h]

/-- **The query map.** A name is in the map exactly if some segment between the `&` of
the query has the name before its first `=`. The value is what stands behind the `=` in
the first of these segments. -/
theorem parseRequestLine_querys {line target path query : Bytes} {method : Method}
    {version : Version} {req : HttpRequest} (hparse : parseRequestLine {} line = .ok (true, req))
    (hline : IsRequestLine line method target version)
    (htarget : target = path ++ questionMark :: query) (hpath : questionMark ∉ path)
    (name : Bytes) :
    (name ∈ req.querys_ ↔ ∃ seg ∈ query.splitOn ampersand, Names seg name) ∧
    ∀ value, req.querys_[name]? = some value ↔
      ∃ before after, query.splitOn ampersand = before ++ (name ++ equals :: value) :: after ∧
        equals ∉ name ∧ ∀ seg ∈ before, ¬ Names seg name := by
  subst htarget
  have hreq : req.querys_ = (split query (bytes "&")).foldl insertParm ∅ := by
    rw [parseRequestLine_of hline, setTarget_query _ hpath] at hparse
    cases hparse
    rfl
  have hget : req.querys_[name]? = (query.splitOn ampersand).findSome? (valueIn name) := by
    rw [hreq, foldl_insertParm_split, getElem?_foldl_insertParm]
    simp
  constructor
  · rw [Std.ExtTreeMap.mem_iff_isSome_getElem?, hget, List.isSome_findSome?, List.any_eq_true]
    constructor
    · rintro ⟨seg, hseg, hsome⟩
      obtain ⟨value, hvalue⟩ := Option.isSome_iff_exists.mp hsome
      exact ⟨seg, hseg, value, (valueIn_eq_some_iff name seg value).mp hvalue⟩
    · rintro ⟨seg, hseg, value, hvalue⟩
      exact ⟨seg, hseg, by rw [(valueIn_eq_some_iff name seg value).mpr hvalue]; rfl⟩
  · intro value
    rw [hget, List.findSome?_eq_some_iff]
    constructor
    · rintro ⟨before, seg, after, heq, hvalue, hbefore⟩
      obtain ⟨rfl, hname⟩ := (valueIn_eq_some_iff name seg value).mp hvalue
      exact ⟨before, after, heq, hname,
        fun s hs => (valueIn_eq_none_iff name s).mp (hbefore s hs)⟩
    · rintro ⟨before, after, heq, hname, hbefore⟩
      exact ⟨before, _, after, heq, (valueIn_eq_some_iff name _ value).mpr ⟨rfl, hname⟩,
        fun s hs => (valueIn_eq_none_iff name s).mpr (hbefore s hs)⟩

/-- Of two values the first counts, and a segment without `=` does not. -/
theorem querys_of_repeated_name :
    ∃ req, parseRequestLine {} (bytes "GET /p?a=1&b&a=2 HTTP/1.1") = .ok (true, req) ∧
      req.querys_[bytes "a"]? = some (bytes "1") ∧ bytes "b" ∉ req.querys_ := by
  have hline : IsRequestLine (bytes "GET /p?a=1&b&a=2 HTTP/1.1") .kGet (bytes "/p?a=1&b&a=2")
      .kHttp11 := ⟨bytes "GET", 49, by decide, by decide, by decide, by decide⟩
  have hparse := parseRequestLine_of hline
  have htarget : bytes "/p?a=1&b&a=2" = bytes "/p" ++ questionMark :: bytes "a=1&b&a=2" := by
    decide
  have hsegs : (bytes "a=1&b&a=2").splitOn ampersand = [bytes "a=1", bytes "b", bytes "a=2"] := by
    decide
  refine ⟨_, hparse, ?_, ?_⟩
  · obtain ⟨-, hvalue⟩ := parseRequestLine_querys hparse hline htarget (by decide) (bytes "a")
    rw [hvalue, hsegs]
    exact ⟨[], [bytes "b", bytes "a=2"], by decide, by decide, by simp⟩
  · obtain ⟨hmem, -⟩ := parseRequestLine_querys hparse hline htarget (by decide) (bytes "b")
    rw [hmem, hsegs]
    rintro ⟨seg, hseg, value, rfl, -⟩
    simp [bytes] at hseg

end Cppim.Http.HttpContext
