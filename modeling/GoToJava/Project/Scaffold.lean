import GoToJava.Project.Path

/-! The files of a Java project that do not depend on the Go sources. -/

namespace GoToJava

/-- A file to be written. -/
structure OutputFile where
  path : String
  text : String
  deriving DecidableEq, Repr, Inhabited

namespace Scaffold

def projectText (name : String) : String :=
  "<?xml version=\"1.0\" encoding=\"UTF-8\"?>\n" ++
  "<projectDescription>\n" ++
  "\t<name>" ++ name ++ "</name>\n" ++
  "\t<comment></comment>\n" ++
  "\t<projects>\n" ++
  "\t</projects>\n" ++
  "\t<buildSpec>\n" ++
  "\t\t<buildCommand>\n" ++
  "\t\t\t<name>org.eclipse.jdt.core.javabuilder</name>\n" ++
  "\t\t\t<arguments>\n" ++
  "\t\t\t</arguments>\n" ++
  "\t\t</buildCommand>\n" ++
  "\t</buildSpec>\n" ++
  "\t<natures>\n" ++
  "\t\t<nature>org.eclipse.jdt.core.javanature</nature>\n" ++
  "\t</natures>\n" ++
  "</projectDescription>\n"

def classpathText : String :=
  "<?xml version=\"1.0\" encoding=\"UTF-8\"?>\n" ++
  "<classpath>\n" ++
  "\t<classpathentry kind=\"src\" path=\"src\"/>\n" ++
  "\t<classpathentry kind=\"con\" path=\"org.eclipse.jdt.launching.JRE_CONTAINER\"/>\n" ++
  "\t<classpathentry kind=\"output\" path=\"bin\"/>\n" ++
  "</classpath>\n"

/-- The class that calls of `append` use. -/
def arrayUtilText : String :=
  "package org.go2j.util;\n" ++
  "\n" ++
  "import java.util.Arrays;\n" ++
  "\n" ++
  "public class ArrayUtil \x7b\n" ++
  "\n" ++
  "\tpublic static <T> T[] append(T[] original, T element) \x7b\n" ++
  "\t\tT[] copy = Arrays.copyOf(original, original.length + 1);\n" ++
  "\t\tcopy[original.length] = element;\n" ++
  "\t\treturn copy;\n" ++
  "\t\x7d\n" ++
  "\n" ++
  "\x7d\n"

/-- The directory of the Java sources. -/
def sources (target : String) : String := Path.join target "src"

/-- The project files and the helper class, in the order they are written. -/
def files (target name : String) : List OutputFile := [
  ⟨Path.join target ".project", projectText name⟩,
  ⟨Path.join target ".classpath", classpathText⟩,
  ⟨Path.join (sources target) "org/go2j/util/ArrayUtil.java", arrayUtilText⟩]

end Scaffold

end GoToJava
