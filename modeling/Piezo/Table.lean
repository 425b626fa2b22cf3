import Piezo.Note

/-!
Named tables: frequencies, lengths and ringtones under stable names.

A name is looked up without regard to the case of its ASCII letters.
-/

namespace Piezo

/-- Values under names, in the order in which they are listed. -/
abbrev Table (α : Type) := List (String × α)

namespace Table

/-- Equality up to the case of ASCII letters. -/
def sameName (a b : String) : Bool :=
  a.toList.map Char.toLower == b.toList.map Char.toLower

def find? {α : Type} (table : Table α) (name : String) : Option α :=
  (List.find? (fun row => sameName row.1 name) table).map Prod.snd

/-- Note frequencies in hertz, in ascending order. -/
def frequencies : Table UInt32 :=
  [("PAUSE", 0), ("VERY_LOW_C", 130), ("VERY_LOW_C_SHARP", 138), ("VERY_LOW_D", 147),
    ("LOW_C", 261), ("LOW_C_SHARP", 277), ("LOW_D", 294), ("LOW_D_SHARP", 311), ("LOW_E", 330),
    ("LOW_F", 349), ("LOW_F_SHARP", 370), ("LOW_G", 392), ("LOW_G_SHARP", 415), ("LOW_A", 440),
    ("LOW_A_SHARP", 466), ("LOW_B", 494), ("MEDIUM_C", 523), ("MEDIUM_C_SHARP", 554),
    ("MEDIUM_D", 587), ("MEDIUM_D_SHARP", 622), ("MEDIUM_E", 659), ("MEDIUM_F", 698),
    ("MEDIUM_F_SHARP", 740), ("MEDIUM_G", 784), ("MEDIUM_G_SHARP", 831), ("MEDIUM_A", 880),
    ("MEDIUM_A_SHARP", 932), ("MEDIUM_B", 988), ("HIGH_C", 1047), ("HIGH_C_SHARP", 1109),
    ("HIGH_D", 1175), ("HIGH_D_SHARP", 1245), ("HIGH_E", 1319), ("HIGH_F", 1397),
    ("HIGH_F_SHARP", 1480), ("HIGH_G", 1568), ("HIGH_G_SHARP", 1661), ("HIGH_A", 1760),
    ("HIGH_A_SHARP", 1865), ("HIGH_B", 1976), ("VERY_HIGH_C", 4186), ("VERY_HIGH_C_SHARP", 4435),
    ("VERY_HIGH_D", 4699)]

def lengths : Table UInt32 :=
  [("VERY_SHORT", 50), ("SHORT", 200), ("MEDIUM", 500), ("LONG", 1000)]

def ringtones : Table String :=
  [("nokia",
      "Nokia:d=4,o=5,b=225:8e6,8d6,f#,g#,8c#6,8b,d,e,8b,8a,c#,e,2a"),
    ("xfiles",
      "Xfiles:d=4,o=5,b=125:e,b,a,b,d6,2b.,1p,e,b,a,b,e6,2b.,1p,g6,f#6,e6,d6,e6,2b.,1p,g6,f#6," ++
      "e6,d6,f#6,2b.,1p,e,b,a,b,d6,2b.,1p,e,b,a,b,e6,2b.,1p,e6,2b."),
    ("mission",
      "MissionImp:d=16,o=6,b=95:32d,32d#,32d,32d#,32d,32d#,32d,32d#,32d,32d,32d#,32e,32f,32f#," ++
      "32g,g,8p,g,8p,a#,p,c7,p,g,8p,g,8p,f,p,f#,p,g,8p,g,8p,a#,p,c7,p,g,8p,g,8p,f,p,f#,p,a#,g," ++
      "2d,32p,a#,g,2c#,32p,a#,g,2c,a#5,8c,2p,32p,a#5,g5,2f#,32p,a#5,g5,2f,32p,a#5,g5,2e,d#,8d"),
    ("simpsons",
      "The Simpsons:d=4,o=5,b=160:c.6,e6,f#6,8a6,g.6,e6,c6,8a,8f#,8f#,8f#,2g,8p,8p,8f#,8f#,8f#," ++
      "8g,a#.,8c6,8c6,8c6,c6"),
    ("gadget",
      "Gadget:d=16,o=5,b=50:32d#,32f,32f#,32g#,a#,f#,a,f,g#,f#,32d#,32f,32f#,32g#,a#,d#6,4d6," ++
      "32d#,32f,32f#,32g#,a#,f#,a,f,g#,f#,8d#"),
    ("canon",
      "Canon:d=16,o=6,b=125:8a#.,g.,g#.,8a#.,g.,g#.,a#.,a#.5,c.,d.,d#.,f.,g.,g#.,8g.,d#.,f.," ++
      "8g.,g.5,g#.5,a#.5,c.,a#.5,g#.5,a#.5,g.5,g#.5,a#.5,8g#.5,c.,a#.5,8g#.5,g.5,f.5,g.5,f.5," ++
      "d#.5,f.5,g.5,g#.5,a#.5,c.,8g#.5,c.,a#.5,8c.,d.,d#.,a#.5,c.,d.,d#.,f.,g.,g#.,8a#"),
    ("supermario",
      "smwwd1:d=4,o=5,b=125:a,8f.,16c,16d,16f,16p,f,16d,16c,16p,16f,16p,16f,16p,8c6,8a.,g,16c," ++
      "a,8f.,16c,16d,16f,16p,f,16d,16c,16p,16f,16p,16a#,16a,16g,2f,16p,8a.,8f.,8c,8a.,f,16g#," ++
      "16f,16c,16p,8g#.,2g,8a.,8f.,8c,8a.,f,16g#,16f,8c,2c6")]

end Table

namespace Melody

/-- The scale from C to G, half a second a note. -/
def sample : Melody :=
  ⟨#[⟨523, 500⟩, ⟨587, 500⟩, ⟨659, 500⟩, ⟨698, 500⟩, ⟨784, 500⟩], .shared⟩

end Melody

end Piezo
