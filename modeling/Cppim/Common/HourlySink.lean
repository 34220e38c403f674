import Cppim.Common.Number
import Cppim.Lib.Calendar

/-! `common/hourly_file_sink.h`: the log file changes with the hour.

The logger is asynchronous: a message carries the time at which it was logged and is
handled later. The file is named after the message's time, but the point at which the next
one is opened is counted from the time of handling. `own_hour_iff` says when every message
nevertheless goes to the file of its own hour. Local time is a whole number of hours off
the clock. -/

namespace Cppim.Common.HourlySink

open Cppim.Lib Cppim.Lib.Calendar

/-! ## Clock and local time -/

/-- `std::tm`, as far as it is used -/
structure Tm where
  tm_year : Int
  tm_mon : Int
  tm_mday : Int
  tm_hour : Int
  tm_min : Int
  tm_sec : Int
  deriving Repr, DecidableEq

/-- A time point is a number of nanoseconds; the conversion cuts the fraction off. -/
def to_time_t (tp : Int) : Int := tp.tdiv 1000000000

def from_time_t (t : Int) : Int := t * 1000000000

/-- `std::chrono::hours(n)` -/
def hours (n : Int) : Int := n * 3600000000000

def localtime (offset t : Int) : Tm :=
  let clock := t + 3600 * offset
  let date := ofDays (clock / 86400)
  { tm_year := date.year - 1900
    tm_mon := date.month - 1
    tm_mday := date.day
    tm_hour := clock % 86400 / 3600
    tm_min := clock % 3600 / 60
    tm_sec := clock % 60 }

def mktime (offset : Int) (tm : Tm) : Int :=
  86400 * toDays (tm.tm_year + 1900) (tm.tm_mon + 1) tm.tm_mday + 3600 * tm.tm_hour +
    60 * tm.tm_min + tm.tm_sec - 3600 * offset

/-! ## File names -/

/-- `std::string::rfind` -/
def rfind (c : UInt8) : Bytes → Option Nat
  | [] => none
  | x :: xs =>
    match rfind c xs with
    | some i => some (i + 1)
    | none => if x = c then some 0 else none

def dot : UInt8 := 46
def folder_sep : UInt8 := 47

/-- The base name and the extension with its dot. -/
def split_by_extenstion (fname : Bytes) : Bytes × Bytes :=
  match rfind dot fname with
  | none => (fname, [])
  | some ext_index =>
    if ext_index = 0 ∨ ext_index = fname.length - 1 then (fname, [])
    else
      match rfind folder_sep fname with
      | some folder_index =>
        if folder_index ≥ ext_index - 1 then (fname, [])
        else (fname.take ext_index, fname.drop ext_index)
      | none => (fname.take ext_index, fname.drop ext_index)

example : split_by_extenstion (bytes "log.d/im.log") = (bytes "log.d/im", bytes ".log") := by decide

example : split_by_extenstion (bytes "log.d/im") = (bytes "log.d/im", []) := by decide

def calc_filename (filename : Bytes) (tm : Tm) : Bytes :=
  let (basename, ext) := split_by_extenstion filename
  basename ++ bytes "_" ++ formatPadded 4 (tm.tm_year + 1900) ++ bytes "-" ++
    formatPadded 2 (tm.tm_mon + 1) ++ bytes "-" ++ formatPadded 2 tm.tm_mday ++ bytes "_" ++
    formatPadded 2 tm.tm_hour ++ ext

/-! ## The sink -/

/-- A message: the time at which it was logged and what `log_clock::now()` shows when it is
handled. The creation of the sink is one as well, with the two readings of the clock. -/
structure Entry where
  time : Int
  now : Int
  deriving Repr, DecidableEq

/-- `filename` is the file that `file_helper_` has open. -/
structure Sink where
  base_filename_ : Bytes
  rotation_interval_ : Int
  rotation_tp_ : Int
  filename : Bytes
  deriving Repr, DecidableEq

section Offset

variable (offset : Int)

def now_tm (tp : Int) : Tm := localtime offset (to_time_t tp)

def next_rotation_tp_ (rotation_interval_ now : Int) : Int :=
  let date := { now_tm offset now with tm_min := 0, tm_sec := 0 }
  let rotation_time := from_time_t (mktime offset date)
  if rotation_time > now then rotation_time else rotation_time + hours rotation_interval_

/-- The constructor; `none` is the exception. -/
def create (base_filename : Bytes) (rotation_interval : Int) (created : Entry) : Option Sink :=
  if rotation_interval < 1 ∨ rotation_interval > 24 then none
  else some
    { base_filename_ := base_filename
      rotation_interval_ := rotation_interval
      rotation_tp_ := next_rotation_tp_ offset rotation_interval created.now
      filename := calc_filename base_filename (now_tm offset created.time) }

/-- The message is written to the file that is open afterwards. -/
def sink_it_ (sink : Sink) (msg : Entry) : Sink :=
  if msg.time ≥ sink.rotation_tp_ then
    { sink with
      filename := calc_filename sink.base_filename_ (now_tm offset msg.time)
      rotation_tp_ := next_rotation_tp_ offset sink.rotation_interval_ msg.now }
  else sink

/-- The messages with the files that they are written to. -/
def written (sink : Sink) : List Entry → List (Entry × Bytes)
  | [] => []
  | msg :: msgs =>
    let sink := sink_it_ offset sink msg
    (msg, sink.filename) :: written sink msgs

/-! ## Hours -/

/-- The hours since the epoch. -/
def hourOf (tp : Int) : Int := tp / 3600000000000

variable {offset}

theorem to_time_t_nonneg {tp : Int} (h : 0 ≤ tp) : to_time_t tp = tp / 1000000000 :=
  Int.tdiv_eq_ediv_of_nonneg h

/-- Without minutes and seconds a local time is the full hour before it. -/
theorem mktime_hour (t : Int) :
    mktime offset { localtime offset t with tm_min := 0, tm_sec := 0 } = 3600 * (t / 3600) := by
  have hdays := toDays_ofDays ((t + 3600 * offset) / 86400)
  simp only [mktime, localtime, Int.sub_add_cancel, hdays]
  omega

theorem next_rotation_eq {now : Int} (h : 0 ≤ now) (interval : Int) :
    next_rotation_tp_ offset interval now = hours (hourOf now + interval) := by
  have hfull : from_time_t (mktime offset { now_tm offset now with tm_min := 0, tm_sec := 0 }) =
      hours (hourOf now) := by
    rw [now_tm, mktime_hour, to_time_t_nonneg h]
    simp only [from_time_t, hours, hourOf]
    omega
  have hpast : ¬ hours (hourOf now) > now := by
    simp only [hours, hourOf]
    omega
  simp only [next_rotation_tp_, hfull, if_neg hpast]
  simp only [hours]
  omega

theorem hours_le_iff (n tp : Int) : hours n ≤ tp ↔ n ≤ hourOf tp := by
  simp only [hours, hourOf]
  omega

/-- `tm` has the date and the hour of the local hour `h`. -/
structure Shows (tm : Tm) (h : Int) : Prop where
  year : tm.tm_year + 1900 = (ofDays (h / 24)).year
  month : tm.tm_mon + 1 = (ofDays (h / 24)).month
  day : tm.tm_mday = (ofDays (h / 24)).day
  hour : tm.tm_hour = h % 24

theorem now_tm_shows {tp : Int} (htp : 0 ≤ tp) :
    Shows (now_tm offset tp) (hourOf tp + offset) := by
  have hday : (to_time_t tp + 3600 * offset) / 86400 = (hourOf tp + offset) / 24 := by
    rw [to_time_t_nonneg htp, hourOf]
    omega
  have hhour : (to_time_t tp + 3600 * offset) % 86400 / 3600 = (hourOf tp + offset) % 24 := by
    rw [to_time_t_nonneg htp, hourOf]
    omega
  constructor <;> simp only [now_tm, localtime, hday, hhour, Int.sub_add_cancel]

/-! ## What a file name tells -/

/-- Numbers for which `{:02d}` writes two characters. -/
def TwoDigits (n : Int) : Prop := 0 ≤ n ∧ n < 100

theorem length_twoDigits {n n' : Int} (h : TwoDigits n) (h' : TwoDigits n') :
    (formatPadded 2 n).length = (formatPadded 2 n').length := by
  rw [length_formatPadded (by decide) h.1 h.2, length_formatPadded (by decide) h'.1 h'.2]

namespace Shows

variable {tm tm' : Tm} {h h' : Int}

theorem twoDigits (hs : Shows tm h) :
    TwoDigits (tm.tm_mon + 1) ∧ TwoDigits tm.tm_mday ∧ TwoDigits tm.tm_hour := by
  rw [hs.month, hs.day, hs.hour]
  refine ⟨⟨?_, ?_⟩, ⟨?_, ?_⟩, ⟨?_, ?_⟩⟩
  · exact Int.le_trans (by decide) (ofDays (h / 24)).month_pos
  · exact Int.lt_of_le_of_lt (ofDays (h / 24)).month_le (by decide)
  · exact Int.le_trans (by decide) (ofDays (h / 24)).day_pos
  · exact Int.lt_of_le_of_lt (ofDays (h / 24)).day_le (by decide)
  · omega
  · omega

theorem filename_eq (hs : Shows tm h) (hs' : Shows tm' h) (base : Bytes) :
    calc_filename base tm = calc_filename base tm' := by
  simp only [calc_filename, hs.year, hs.month, hs.day, hs.hour, hs'.year, hs'.month, hs'.day,
    hs'.hour]

/-- Behind the year the parts of a name have fixed lengths, so they are told apart. -/
theorem eq_of_filename (hs : Shows tm h) (hs' : Shows tm' h') {base : Bytes}
    (heq : calc_filename base tm = calc_filename base tm') : h = h' := by
  obtain ⟨hmonth, hday, hhour⟩ := hs.twoDigits
  obtain ⟨hmonth', hday', hhour'⟩ := hs'.twoDigits
  unfold calc_filename at heq
  have heq := List.append_cancel_right heq
  obtain ⟨heq, ehour⟩ := List.append_inj' heq (length_twoDigits hhour hhour')
  have heq := List.append_cancel_right heq
  obtain ⟨heq, eday⟩ := List.append_inj' heq (length_twoDigits hday hday')
  have heq := List.append_cancel_right heq
  obtain ⟨heq, emonth⟩ := List.append_inj' heq (length_twoDigits hmonth hmonth')
  have heq := List.append_cancel_right heq
  have eyear := formatPadded_injective 4 (List.append_cancel_left heq)
  have emonth := formatPadded_injective 2 emonth
  have eday := formatPadded_injective 2 eday
  have ehour := formatPadded_injective 2 ehour
  rw [hs.year, hs'.year] at eyear
  rw [hs.month, hs'.month] at emonth
  rw [hs.day, hs'.day] at eday
  rw [hs.hour, hs'.hour] at ehour
  have hdays : h / 24 = h' / 24 := by
    rw [← toDays_ofDays (h / 24), ← toDays_ofDays (h' / 24), eyear, emonth, eday]
  omega

end Shows

/-- Two times give the same file name exactly if they lie in the same hour. -/
theorem filename_eq_iff {tp tp' : Int} (htp : 0 ≤ tp) (htp' : 0 ≤ tp') (base : Bytes) :
    calc_filename base (now_tm offset tp) = calc_filename base (now_tm offset tp') ↔
      hourOf tp = hourOf tp' := by
  have hs : Shows (now_tm offset tp) (hourOf tp + offset) := now_tm_shows htp
  have hs' : Shows (now_tm offset tp') (hourOf tp' + offset) := now_tm_shows htp'
  constructor
  · intro heq
    have hlocal := hs.eq_of_filename hs' heq
    omega
  · intro heq
    rw [← heq] at hs'
    exact hs.filename_eq hs' base

/-! ## Which file is open -/

/-- The file was opened for `e`. -/
structure OpenedBy (offset : Int) (sink : Sink) (e : Entry) : Prop where
  interval : sink.rotation_interval_ = 1
  filename : sink.filename = calc_filename sink.base_filename_ (now_tm offset e.time)
  rotation : sink.rotation_tp_ = hours (hourOf e.now + 1)

theorem create_openedBy {base : Bytes} {created : Entry} {sink : Sink} (hnow : 0 ≤ created.now)
    (h : create offset base 1 created = some sink) :
    sink.base_filename_ = base ∧ OpenedBy offset sink created := by
  rw [create, if_neg (by decide)] at h
  cases h
  exact ⟨rfl, rfl, rfl, next_rotation_eq hnow 1⟩

/-- A message opens a file exactly if its hour is later than the one in which the message
that opened the last file was handled. -/
theorem sink_it_cases {sink : Sink} {e msg : Entry} (hs : OpenedBy offset sink e)
    (hnow : 0 ≤ msg.now) :
    (sink_it_ offset sink msg).base_filename_ = sink.base_filename_ ∧
    (hourOf e.now < hourOf msg.time ∧ OpenedBy offset (sink_it_ offset sink msg) msg ∨
      ¬ hourOf e.now < hourOf msg.time ∧ sink_it_ offset sink msg = sink) := by
  have hdue : msg.time ≥ sink.rotation_tp_ ↔ hourOf e.now < hourOf msg.time := by
    rw [hs.rotation]
    exact hours_le_iff _ _
  unfold sink_it_
  by_cases h : hourOf e.now < hourOf msg.time
  · rw [if_pos (hdue.mpr h)]
    refine ⟨rfl, Or.inl ⟨h, hs.interval, rfl, ?_⟩⟩
    simp only [hs.interval]
    exact next_rotation_eq hnow 1
  · rw [if_neg (mt hdue.mp h)]
    exact ⟨rfl, Or.inr ⟨h, rfl⟩⟩

/-- No message behind `e` finds the file of `e` although its own hour is another one. -/
def Kept : Entry → List Entry → Prop
  | _, [] => True
  | e, msg :: msgs =>
    if hourOf e.now < hourOf msg.time then Kept msg msgs
    else hourOf msg.time = hourOf e.time ∧ Kept e msgs

theorem written_iff (msgs : List Entry) (e : Entry) (sink : Sink) (hs : OpenedBy offset sink e)
    (he : 0 ≤ e.time) (hmsgs : ∀ msg ∈ msgs, 0 ≤ msg.time ∧ 0 ≤ msg.now) :
    (∀ p ∈ written offset sink msgs,
      p.2 = calc_filename sink.base_filename_ (now_tm offset p.1.time)) ↔ Kept e msgs := by
  induction msgs generalizing e sink with
  | nil => simp [written, Kept]
  | cons msg msgs ih =>
    obtain ⟨⟨htime, hnow⟩, hrest⟩ := List.forall_mem_cons.mp hmsgs
    obtain ⟨hbase, ⟨hlater, hopened⟩ | ⟨hlater, hsame⟩⟩ := sink_it_cases hs hnow
    · have hih := ih msg _ hopened htime hrest
      rw [hbase] at hih
      rw [written, List.forall_mem_cons, hih, Kept, if_pos hlater]
      refine and_iff_right ?_
      rw [← hbase]
      exact hopened.filename
    · rw [written, List.forall_mem_cons, hsame, ih e sink hs he hrest, Kept, if_neg hlater,
        hs.filename, filename_eq_iff he htime, eq_comm]

/-! ## When the hours are kept -/

/-- `e` is handled so late that the hour of `msg`, which is a later one, has begun. -/
def Skips (e msg : Entry) : Prop :=
  hourOf e.time < hourOf msg.time ∧ hourOf msg.time ≤ hourOf e.now

/-- No entry that is the first one of its hour skips the hour of a later entry. -/
def NoneSkipped (entries : List Entry) : Prop :=
  ∀ as e bs, entries = as ++ e :: bs → (∀ a ∈ as, hourOf a.time ≠ hourOf e.time) →
    ∀ msg ∈ bs, ¬ Skips e msg

theorem hourOf_mono {a b : Int} (h : a ≤ b) : hourOf a ≤ hourOf b :=
  Int.ediv_le_ediv (by decide) h

/-- The places of a list are its head and the places of its tail. -/
theorem forall_split_cons {α : Type} {Q : List α → α → List α → Prop} (y : α) (l : List α) :
    (∀ as x bs, y :: l = as ++ x :: bs → Q as x bs) ↔
      Q [] y l ∧ ∀ as x bs, l = as ++ x :: bs → Q (y :: as) x bs := by
  constructor
  · intro h
    exact ⟨h [] y l rfl, fun as x bs hl => h (y :: as) x bs (by rw [hl]; rfl)⟩
  · rintro ⟨hhead, htail⟩ as x bs hsplit
    cases as with
    | nil =>
      cases hsplit
      exact hhead
    | cons a as =>
      cases hsplit
      exact htail as x bs rfl

/-- An entry is of no account once all that follows is later than its handling. -/
theorem noneSkipped_later {e : Entry} {l : List Entry} (he : e.time ≤ e.now)
    (hlater : ∀ msg ∈ l, hourOf e.now < hourOf msg.time) :
    NoneSkipped (e :: l) ↔ NoneSkipped l := by
  have hhour := hourOf_mono he
  rw [NoneSkipped, forall_split_cons]
  constructor
  · rintro ⟨-, h⟩ as x bs hsplit hfirst
    refine h as x bs hsplit (List.forall_mem_cons.mpr ⟨?_, hfirst⟩)
    have hx := hlater x (by simp [hsplit])
    omega
  · intro h
    refine ⟨fun _ msg hmsg hskip => ?_, fun as x bs hsplit hfirst => ?_⟩
    · exact absurd hskip.2 (Int.not_le.mpr (hlater msg hmsg))
    · exact h as x bs hsplit (List.forall_mem_cons.mp hfirst).2

/-- Only the first entry of an hour counts. -/
theorem noneSkipped_same {e msg : Entry} {l : List Entry} (h : hourOf msg.time = hourOf e.time) :
    NoneSkipped (e :: msg :: l) ↔ NoneSkipped (e :: l) := by
  simp only [NoneSkipped, forall_split_cons, List.forall_mem_cons]
  constructor
  · rintro ⟨hhead, -, htail⟩
    refine ⟨fun _ => (hhead nofun).2, fun as x bs hsplit hfirst => ?_⟩
    exact htail as x bs hsplit ⟨hfirst.1, h ▸ hfirst.1, hfirst.2⟩
  · rintro ⟨hhead, htail⟩
    refine ⟨fun _ => ⟨fun hskip => ?_, hhead nofun⟩, fun hfirst => absurd h.symm hfirst.1, ?_⟩
    · exact absurd h (Int.ne_of_gt hskip.1)
    · intro as x bs hsplit hfirst
      exact htail as x bs hsplit ⟨hfirst.1, hfirst.2.2⟩

theorem kept_iff (msgs : List Entry) (e : Entry)
    (htimes : (e :: msgs).Pairwise fun a b => a.time ≤ b.time)
    (hdelay : ∀ a ∈ e :: msgs, a.time ≤ a.now) : Kept e msgs ↔ NoneSkipped (e :: msgs) := by
  induction msgs generalizing e with
  | nil => simp [Kept, NoneSkipped, forall_split_cons]
  | cons msg msgs ih =>
    obtain ⟨hhead, htail⟩ := List.pairwise_cons.mp htimes
    obtain ⟨he, hrest⟩ := List.forall_mem_cons.mp hdelay
    rw [Kept]
    by_cases hlater : hourOf e.now < hourOf msg.time
    · have hall : ∀ m ∈ msg :: msgs, hourOf e.now < hourOf m.time := by
        intro m hm
        rcases List.mem_cons.mp hm with rfl | hm
        · exact hlater
        · exact Int.lt_of_lt_of_le hlater (hourOf_mono ((List.pairwise_cons.mp htail).1 m hm))
      rw [if_pos hlater, ih msg htail hrest, noneSkipped_later he hall]
    · rw [if_neg hlater]
      by_cases hsame : hourOf msg.time = hourOf e.time
      · have htimes' : (e :: msgs).Pairwise fun a b => a.time ≤ b.time :=
          List.pairwise_cons.mpr ⟨fun m hm => hhead m (List.mem_cons_of_mem _ hm),
            (List.pairwise_cons.mp htail).2⟩
        have hdelay' : ∀ a ∈ e :: msgs, a.time ≤ a.now :=
          List.forall_mem_cons.mpr ⟨he, (List.forall_mem_cons.mp hrest).2⟩
        rw [noneSkipped_same hsame, ih e htimes' hdelay']
        exact and_iff_right hsame
      · -- the message finds the file of `e`
        have hskip : Skips e msg := by
          have hmono := hourOf_mono (hhead msg List.mem_cons_self)
          constructor <;> omega
        refine iff_of_false (fun h => hsame h.1) fun h => ?_
        exact h [] e _ rfl nofun msg List.mem_cons_self hskip

/-- **When the files hold their own hours.** The sink changes its file every hour. The times
of the messages do not fall and none is handled before its time; the clock is past the
epoch. Then every message is written to the file that is named after its own date and hour
if and only if no message that is the first one of its hour, nor the creation of the sink,
is handled so late that the hour of a later message, being another one, has begun by
then. -/
theorem own_hour_iff (offset : Int) (base : Bytes) (created : Entry) (msgs : List Entry)
    (sink : Sink) (hcreate : create offset base 1 created = some sink) (hepoch : 0 ≤ created.time)
    (htimes : (created :: msgs).Pairwise fun a b => a.time ≤ b.time)
    (hdelay : ∀ e ∈ created :: msgs, e.time ≤ e.now) :
    (∀ p ∈ written offset sink msgs, p.2 = calc_filename base (now_tm offset p.1.time)) ↔
      NoneSkipped (created :: msgs) := by
  obtain ⟨hcreated, hrest⟩ := List.forall_mem_cons.mp hdelay
  obtain ⟨rfl, hopened⟩ := create_openedBy (hepoch.trans hcreated) hcreate
  have hmsgs : ∀ msg ∈ msgs, 0 ≤ msg.time ∧ 0 ≤ msg.now := by
    intro msg hmsg
    have htime := hepoch.trans ((List.pairwise_cons.mp htimes).1 msg hmsg)
    exact ⟨htime, htime.trans (hrest msg hmsg)⟩
  rw [written_iff msgs created sink hopened hepoch hmsgs, kept_iff msgs created htimes hdelay]

end Offset

/-! ## A queue across the full hour -/

/-- Half past nine on 1 October 2019, in a zone eight hours ahead. -/
def halfPastNine : Entry := ⟨1569893400000000000, 1569893400000000000⟩

def startedSink : Sink where
  base_filename_ := bytes "im.log"
  rotation_interval_ := 1
  rotation_tp_ := 1569895200000000000
  filename := bytes "im_2019-10-01_09.log"

/-- Logged a second before eleven and handled a second after. -/
def beforeEleven : Entry := ⟨1569898799000000000, 1569898801000000000⟩

/-- Logged at eleven and handled two seconds later. -/
def atEleven : Entry := ⟨1569898800000000000, 1569898802000000000⟩

/-- The first message after ten is handled after eleven. The file is named after ten, but
stays open until twelve: the message of eleven o'clock goes into it. -/
theorem misfiled_at_eleven :
    create 8 (bytes "im.log") 1 halfPastNine = some startedSink ∧
      [halfPastNine, beforeEleven, atEleven].Pairwise
        (fun a b => a.time ≤ b.time ∧ a.now ≤ b.now) ∧
      (∀ e ∈ [halfPastNine, beforeEleven, atEleven], e.time ≤ e.now) ∧
      written 8 startedSink [beforeEleven, atEleven] =
        [(beforeEleven, bytes "im_2019-10-01_10.log"), (atEleven, bytes "im_2019-10-01_10.log")] ∧
      calc_filename (bytes "im.log") (now_tm 8 atEleven.time) = bytes "im_2019-10-01_11.log" := by
  decide +kernel

/-- Handled before eleven, the first message after ten skips no hour. -/
theorem own_hour_in_time :
    (∀ p ∈ written 8 startedSink [⟨1569898799000000000, 1569898799500000000⟩, atEleven],
      p.2 = calc_filename (bytes "im.log") (now_tm 8 p.1.time)) ∧
    NoneSkipped [halfPastNine, ⟨1569898799000000000, 1569898799500000000⟩, atEleven] := by
  have hown : ∀ p ∈ written 8 startedSink
      [⟨1569898799000000000, 1569898799500000000⟩, atEleven],
      p.2 = calc_filename (bytes "im.log") (now_tm 8 p.1.time) := by decide +kernel
  exact ⟨hown, (own_hour_iff 8 (bytes "im.log") halfPastNine _ startedSink (by decide +kernel)
    (by decide) (by decide) (by decide)).mp hown⟩

end Cppim.Common.HourlySink
